import Unravel.Proofs.Eval.Outside
import Unravel.Proofs.Simplify.Steadily
import Unravel.Proofs.Tree.Order

/-!
Trees in which identifiers have been given anew (`Tree.Reissued`). Only identifiers that are read
are given anew, and nothing but their handles and their names changes: what stands around a node,
what it precedes, and the scopes that it sees are those of before.
-/

namespace Unravel

namespace Node

variable {α β : Type} {f : α → β} {n : Node α}

theorem map_eq_declarator_iff {target : β} {init : Option β} :
    n.map f = .variableDeclarator target init ↔
      ∃ before value, n = .variableDeclarator before value ∧ f before = target ∧
        value.map f = init := by
  cases n <;> simp [map, traverse, run_mapM_option]

theorem map_eq_call_iff {callee : β} {arguments : List β} : n.map f = .call callee arguments ↔
    ∃ before others, n = .call before others ∧ f before = callee ∧ others.map f = arguments := by
  cases n <;> simp [map, traverse, run_mapM_option]

theorem map_eq_member_iff {base key : β} {computed : Bool} : n.map f = .member base key computed ↔
    ∃ before other, n = .member before other computed ∧ f before = base ∧ f other = key := by
  cases n with
  | member before other isComputed =>
    simp only [map, traverse, bind_pure_comp, map_pure, Id.run_pure, member.injEq]
    grind
  | _ => simp [map, traverse, run_mapM_option]

end Node

namespace Tree

variable {t mid after : Tree} {root id a b child parent old new : NodeId}
  {now next : NodeId → NodeId} {as bs : List NodeId}

/-! ### Where identifiers are read -/

/-- A node is an initializer, is called, or a member of it is accessed. -/
inductive IsRead (t : Tree) (id : NodeId) : Prop
  | initializer
      {declarator target : NodeId}
      (shape : t.node declarator = .variableDeclarator target (some id))
  | callee {call : NodeId} {arguments : List NodeId} (shape : t.node call = .call id arguments)
  | base {member key : NodeId} {computed : Bool} (shape : t.node member = .member id key computed)

theorem Linked.parent?_of_init (linked : t.Linked) {declarator target : NodeId}
    (shape : t.node declarator = .variableDeclarator target (some id)) :
    t.parent? id = some declarator :=
  linked.mem_children.mp (by simp [shape, Node.children])

theorem Linked.role_of_isRead (linked : t.Linked) (isRead : t.IsRead id) :
    t.role id = .reference := by
  cases isRead with
  | @initializer declarator target shape =>
    have held := linked.parent?_of_init shape
    have distinct := linked.nodup_children declarator
    have different : target ≠ id := by
      rintro rfl
      simp [shape, Node.children] at distinct
    simp [role, held, shape, different]
  | @callee call arguments shape =>
    have held : t.parent? id = some call := linked.mem_children.mp (by simp [shape, Node.children])
    simp [role, held, shape]
  | @base member key computed shape =>
    have held : t.parent? id = some member :=
      linked.mem_children.mp (by simp [shape, Node.children])
    have distinct := linked.nodup_children member
    have different : key ≠ id := by
      rintro rfl
      simp [shape, Node.children] at distinct
    cases computed <;> simp [role, held, shape, different]

theorem Linked.not_binds_of_isRead (linked : t.Linked) (isRead : t.IsRead id) : ¬t.Binds id :=
  linked.not_binds_of_isUse (by rw [linked.role_of_isRead isRead]; rfl)

theorem opens_of_isIdentifier (isIdentifier : (t.node id).isIdentifier = true) :
    t.opens id = false := by
  refine opens_of_isSilent ?_
  cases shape : t.node id <;> simp_all [Node.isIdentifier, Node.identifier?, Node.isSilent]

/-! ### Trees with identifiers given anew -/

/-- Each node of a tree is still there, as what it is now: some identifiers that are read have been
given anew, and what is left holds by its present handle what it held. -/
structure Reissued (t after : Tree) (root : NodeId) (now : NodeId → NodeId) : Prop where
  size : t.size ≤ after.size
  attached : ∀ {id}, t.isWithin id root = true → after.isWithin (now id) root = true
  exists_before :
    ∀ {id}, after.isWithin id root = true →
    ∃ before, t.isWithin before root = true ∧ now before = id
  injective : ∀ {a b}, t.isWithin a root = true → t.isWithin b root = true → now a = now b → a = b
  parent? : ∀ {id}, t.isWithin id root = true → after.parent? (now id) = t.parent? id
  node : ∀ {id}, t.isWithin id root = true → now id = id → after.node id = (t.node id).map now
  isIdentifier : ∀ {id}, t.isWithin id root = true → now id ≠ id → (t.node id).isIdentifier = true
  isIdentifier_now :
    ∀ {id}, t.isWithin id root = true → now id ≠ id → (after.node (now id)).isIdentifier = true
  isRead : ∀ {id}, t.isWithin id root = true → now id ≠ id → t.IsRead id
  isNew : ∀ {id}, t.isWithin id root = true → now id ≠ id → ¬t.Allocated (now id)

theorem Reissued.refl (t : Tree) (root : NodeId) : t.Reissued t root fun id => id where
  size := Nat.le_refl _
  attached isAttached := isAttached
  exists_before {id} isAttached := ⟨id, isAttached, rfl⟩
  injective _ _ same := same
  parent? _ := rfl
  node _ _ := (Node.map_self _).symm
  isIdentifier _ moved := absurd rfl moved
  isIdentifier_now _ moved := absurd rfl moved
  isRead _ moved := absurd rfl moved
  isNew _ moved := absurd rfl moved

namespace Reissued

variable (reissued : t.Reissued after root now) (linked : t.Linked) (isTop : t.IsTop root)

include reissued

theorem isIdentifier_eq (isAttached : t.isWithin id root = true) :
    (after.node (now id)).isIdentifier = (t.node id).isIdentifier := by
  by_cases kept : now id = id
  · rw [kept, reissued.node isAttached kept, Node.isIdentifier,
      ← Node.identifier?_tag, Node.tag_map, Node.identifier?_tag, Node.isIdentifier]
  · rw [reissued.isIdentifier isAttached kept, reissued.isIdentifier_now isAttached kept]

theorem now_of_mem_children (isAttached : t.isWithin id root = true)
    (member : child ∈ (t.node id).children) :
    now id = id := by
  by_contra moved
  rw [children_of_isIdentifier (reissued.isIdentifier isAttached moved)] at member
  cases member

theorem children_now (isAttached : t.isWithin id root = true) :
    (after.node (now id)).children = (t.node id).children.map now := by
  by_cases kept : now id = id
  · rw [kept, reissued.node isAttached kept, Node.children_map]
  · rw [children_of_isIdentifier (reissued.isIdentifier isAttached kept),
      children_of_isIdentifier (reissued.isIdentifier_now isAttached kept), List.map_nil]

include linked isTop

omit reissued isTop in
theorem attached_child (isAttached : t.isWithin parent root = true)
    (held : t.parent? child = some parent) :
    t.isWithin child root = true :=
  linked.isWithin_trans (linked.isWithin_of_parent held) isAttached

omit reissued in
theorem attached_parent (isAttached : t.isWithin child root = true)
    (held : t.parent? child = some parent) :
    t.isWithin parent root = true :=
  linked.isWithin_root_of_above isTop isAttached (linked.isWithin_of_parent held)

theorem now_of_parent (isAttached : t.isWithin child root = true)
    (held : t.parent? child = some parent) :
    now parent = parent :=
  reissued.now_of_mem_children (attached_parent linked isTop isAttached held)
    (linked.mem_children.mpr held)

theorem node_parent (isAttached : t.isWithin child root = true)
    (held : t.parent? child = some parent) :
    after.node parent = (t.node parent).map now :=
  reissued.node (attached_parent linked isTop isAttached held)
    (reissued.now_of_parent linked isTop isAttached held)

theorem unique (again : t.Reissued after root next) (isAttached : t.isWithin id root = true) :
    now id = next id := by
  cases held : t.parent? id with
  | some parent =>
    have same := (reissued.node_parent linked isTop isAttached held).symm.trans
      (again.node_parent linked isTop isAttached held)
    have children := congrArg Node.children same
    rw [Node.children_map, Node.children_map] at children
    exact List.map_inj_left.mp children id (linked.mem_children.mpr held)
  | none =>
    -- Nothing reads the root.
    have stays {now : NodeId → NodeId} (reissued : t.Reissued after root now) : now id = id := by
      by_contra moved
      have held : ∃ parent, t.parent? id = some parent := by
        cases reissued.isRead isAttached moved with
        | initializer shape => exact ⟨_, linked.parent?_of_init shape⟩
        | callee shape =>
          exact ⟨_, linked.mem_children.mp (by rw [shape]; exact List.mem_cons_self ..)⟩
        | base shape =>
          exact ⟨_, linked.mem_children.mp (by rw [shape]; exact List.mem_cons_self ..)⟩
      simp_all
    rw [stays reissued, stays again]

omit isTop in
theorem eq_of_mem_children {other : NodeId} (isAttached : t.isWithin parent root = true)
    (member : child ∈ (t.node parent).children) (otherMember : other ∈ (t.node parent).children)
    (same : now other = now child) : other = child :=
  reissued.injective (attached_child linked isAttached (linked.mem_children.mp otherMember))
    (attached_child linked isAttached (linked.mem_children.mp member)) same

theorem now_of_mem_ancestors (isAttached : t.isWithin id root = true)
    (member : parent ∈ t.ancestors id) :
    now parent = parent := by
  induction id using linked.induction with
  | step id induction =>
    obtain ⟨above, held, place⟩ := linked.mem_ancestors_iff.mp member
    rcases place with rfl | place
    · exact reissued.now_of_parent linked isTop isAttached held
    · exact induction above held (attached_parent linked isTop isAttached held) place

theorem holds_now (isAttached : t.isWithin child root = true) (held : t.parent? child = some parent)
    (part : Part) :
    after.holds parent (now child) part = t.holds parent child part := by
  have aboveAttached := attached_parent linked isTop isAttached held
  rw [holds, holds, decide_eq_decide,
    reissued.node aboveAttached (reissued.now_of_parent linked isTop isAttached held),
    Node.part_map, List.mem_map]
  constructor
  · rintro ⟨other, member, same⟩
    have otherHeld := linked.parent?_of_mem_part member
    rwa [← reissued.injective (attached_child linked aboveAttached otherHeld) isAttached same]
  · exact fun member => ⟨child, member, rfl⟩

theorem alike : t.Alike after fun id => t.isWithin id root = true ∧ now id = id where
  tag kept := by rw [reissued.node kept.1 kept.2, Node.tag_map]
  parent? {id} kept := by
    have same := reissued.parent? kept.1
    rwa [kept.2] at same
  above kept
    held := ⟨attached_parent linked isTop kept.1 held,
      reissued.now_of_parent linked isTop kept.1 held⟩
  holds {id parent} part kept held := by
    have same := reissued.holds_now linked isTop kept.1 held part
    rwa [kept.2] at same

variable (afterLinked : after.Linked)

include afterLinked

omit isTop in
theorem mem_children_before (isAttached : t.isWithin child root = true)
    (member : now child ∈ (after.node parent).children) : child ∈ (t.node parent).children := by
  rw [linked.mem_children, ← reissued.parent? isAttached]
  exact afterLinked.mem_children.mp member

theorem ancestors_now (isAttached : t.isWithin id root = true) :
    after.ancestors (now id) = t.ancestors id := by
  have same := reissued.parent? isAttached
  cases held : t.parent? id with
  | none => rw [ancestors_of_root held, ancestors_of_root (same.trans held)]
  | some parent =>
    rw [linked.ancestors_of_parent held, afterLinked.ancestors_of_parent (same.trans held),
      (reissued.alike linked isTop).ancestors linked afterLinked
        ⟨attached_parent linked isTop isAttached held, reissued.now_of_parent linked isTop
          isAttached held⟩]

theorem path_now (isAttached : t.isWithin id root = true) :
    after.path (now id) = (t.path id).map now := by
  have fixed : (t.ancestors id).map now = t.ancestors id := by
    conv_rhs => rw [← List.map_id (t.ancestors id)]
    exact List.map_congr_left fun above member => reissued.now_of_mem_ancestors linked isTop
      isAttached member
  rw [path, path, reissued.ancestors_now linked isTop afterLinked isAttached, List.map_append,
    List.map_reverse, fixed, List.map_singleton]

omit linked isTop afterLinked in
theorem idxOf?_children_now (linked : t.Linked) (isAttached : t.isWithin id root = true)
    (childAttached : t.isWithin child root = true) :
    (after.node (now id)).children.idxOf? (now child) = (t.node id).children.idxOf? child := by
  rw [reissued.children_now isAttached]
  have below : ∀ other ∈ (t.node id).children, t.isWithin other root = true := fun other member =>
    attached_child linked isAttached (linked.mem_children.mp member)
  generalize (t.node id).children = children at below ⊢
  induction children with
  | nil => rfl
  | cons head rest induction =>
    rw [List.forall_mem_cons] at below
    rw [List.map_cons, List.idxOf?_cons, List.idxOf?_cons, induction below.2]
    by_cases same : head = child
    · rw [same, if_pos (beq_self_eq_true _), if_pos (beq_self_eq_true _)]
    · have apart : now head ≠ now child :=
        fun equal => same (reissued.injective below.1 childAttached equal)
      rw [if_neg (by simpa using apart), if_neg (by simpa using same)]

omit linked isTop afterLinked in
theorem forksBefore_now (linked : t.Linked) (isAttached : t.isWithin id root = true)
    (first : ∀ a ∈ as, t.isWithin a root = true) (second : ∀ b ∈ bs, t.isWithin b root = true) :
    after.forksBefore (now id) (as.map now) (bs.map now) = t.forksBefore id as bs := by
  induction as generalizing id bs with
  | nil => rw [List.map_nil, forksBefore_nil_left, forksBefore_nil_left]
  | cons a as induction =>
    cases bs with
    | nil => rw [List.map_nil, forksBefore_nil_right, forksBefore_nil_right]
    | cons b bs =>
      rw [List.forall_mem_cons] at first second
      rw [List.map_cons, List.map_cons]
      by_cases same : a = b
      · subst same
        rw [forksBefore_cons_self, forksBefore_cons_self]
        exact induction first.1 first.2 second.2
      · have apart : now a ≠ now b := fun equal => same (reissued.injective first.1 second.1 equal)
        rw [Bool.eq_iff_iff, forksBefore_of_ne apart, forksBefore_of_ne same,
          reissued.idxOf?_children_now linked isAttached first.1,
          reissued.idxOf?_children_now linked isAttached second.1]

theorem precedes_now (first : t.isWithin a root = true) (second : t.isWithin b root = true) :
    after.precedes (now a) (now b) = t.precedes a b := by
  have attachedPath {id : NodeId} (isAttached : t.isWithin id root = true) :
      ∀ above ∈ t.path id, t.isWithin above root = true := by
    intro above member
    rw [path, List.mem_append, List.mem_reverse, List.mem_singleton] at member
    exact linked.isWithin_root_of_above isTop isAttached
      (isWithin_iff.mpr (member.symm.imp_left Eq.symm))
  rw [afterLinked.precedes_eq, linked.precedes_eq, reissued.path_now linked isTop afterLinked first,
    reissued.path_now linked isTop afterLinked second]
  have firstPath := attachedPath first
  have secondPath := attachedPath second
  cases isFirst : t.path a with
  | nil => rfl
  | cons r as =>
    cases isSecond : t.path b with
    | nil => rfl
    | cons s bs =>
      rw [isFirst, List.forall_mem_cons] at firstPath
      rw [isSecond, List.forall_mem_cons] at secondPath
      have heads : now r = now s ↔ r = s :=
        ⟨reissued.injective firstPath.1 secondPath.1, fun same => same ▸ rfl⟩
      simp only [List.map_cons, pathBefore, heads, reissued.forksBefore_now linked firstPath.1
        firstPath.2 secondPath.2]

theorem isRead_now (isAttached : t.isWithin id root = true) :
    after.IsRead (now id) ↔ t.IsRead id := by
  have kept {holder : NodeId} (member : id ∈ (t.node holder).children) :
      after.node holder = (t.node holder).map now :=
    reissued.node_parent linked isTop isAttached (linked.mem_children.mp member)
  have same {holder other : NodeId} (held : id ∈ (t.node holder).children)
      (member : other ∈ (t.node holder).children) (equal : now other = now id) : other = id :=
    reissued.eq_of_mem_children linked
      (attached_parent linked isTop isAttached (linked.mem_children.mp held)) held member equal
  constructor
  · intro isRead
    cases isRead with
    | @initializer declarator target shape =>
      have held := reissued.mem_children_before linked afterLinked isAttached
        (by rw [shape]; simp [Node.children])
      rw [kept held, Node.map_eq_declarator_iff] at shape
      obtain ⟨other, value, shape, -, isInit⟩ := shape
      obtain ⟨value, rfl, equal⟩ := Option.map_eq_some_iff.mp isInit
      rw [same held (by rw [shape]; simp [Node.children]) equal] at shape
      exact .initializer shape
    | @callee call arguments shape =>
      have held := reissued.mem_children_before linked afterLinked isAttached
        (by rw [shape]; simp [Node.children])
      rw [kept held, Node.map_eq_call_iff] at shape
      obtain ⟨value, others, shape, equal, -⟩ := shape
      rw [same held (by rw [shape]; simp [Node.children]) equal] at shape
      exact .callee shape
    | @base member key computed shape =>
      have held := reissued.mem_children_before linked afterLinked isAttached
        (by rw [shape]; simp [Node.children])
      rw [kept held, Node.map_eq_member_iff] at shape
      obtain ⟨value, otherKey, shape, equal, -⟩ := shape
      rw [same held (by rw [shape]; simp [Node.children]) equal] at shape
      exact .base shape
  · intro isRead
    cases isRead with
    | @initializer declarator target shape =>
      have shapeNow : after.node declarator = .variableDeclarator (now target) (some (now id)) := by
        rw [kept (by rw [shape]; simp [Node.children]), Node.map_eq_declarator_iff]
        exact ⟨target, some id, shape, rfl, rfl⟩
      exact .initializer shapeNow
    | @callee call arguments shape =>
      have shapeNow : after.node call = .call (now id) (arguments.map now) := by
        rw [kept (by rw [shape]; simp [Node.children]), Node.map_eq_call_iff]
        exact ⟨id, arguments, shape, rfl, rfl⟩
      exact .callee shapeNow
    | @base member key computed shape =>
      have shapeNow : after.node member = .member (now id) (now key) computed := by
        rw [kept (by rw [shape]; simp [Node.children]), Node.map_eq_member_iff]
        exact ⟨id, key, shape, rfl, rfl⟩
      exact .base shapeNow

theorem scopeNode?_now (isAttached : t.isWithin id root = true) :
    after.scopeNode? (now id) = t.scopeNode? id := by
  by_cases kept : now id = id
  · rw [kept]
    exact (reissued.alike linked isTop).scopeNode? linked afterLinked ⟨isAttached, kept⟩
  · have isRead := reissued.isRead isAttached kept
    have isReadNow := (reissued.isRead_now linked isTop afterLinked isAttached).mpr isRead
    rw [scopeNode?_eq (afterLinked.not_binds_of_isRead isReadNow)
        (opens_of_isIdentifier (reissued.isIdentifier_now isAttached kept)),
      scopeNode?_eq (linked.not_binds_of_isRead isRead)
        (opens_of_isIdentifier (reissued.isIdentifier isAttached kept)),
      reissued.ancestors_now linked isTop afterLinked isAttached]
    cases held : t.parent? id with
    | none => rw [ancestors_of_root held, scopeAmong?, scopeAmong?]
    | some parent =>
      have alike := reissued.alike linked isTop
      have parentKept := And.intro (attached_parent linked isTop isAttached held)
        (reissued.now_of_parent linked isTop isAttached held)
      rw [linked.ancestors_of_parent held, scopeAmong?, scopeAmong?, Option.any_some,
        Option.any_some, reissued.holds_now linked isTop isAttached held, alike.opens parentKept,
        alike.scopeAmong?_ancestors linked parentKept]

omit afterLinked in
/-- What is given anew once is not what it was, whatever happens to it later. -/
theorem now_eq_self {last : Tree} (further : after.Reissued last root next)
    (isAttached : t.isWithin id root = true) (kept : next (now id) = id) : now id = id := by
  by_contra moved
  have isNew := reissued.isNew isAttached moved
  by_cases movedAgain : next (now id) = now id
  · exact moved (movedAgain.symm.trans kept)
  · have isNewAgain := further.isNew (reissued.attached isAttached) movedAgain
    rw [kept] at isNewAgain
    exact isNewAgain (Nat.lt_of_lt_of_le (linked.allocated_of_isWithin isAttached isTop.allocated)
      reissued.size)

theorem trans {last : Tree} (further : after.Reissued last root next) :
    t.Reissued last root fun id => next (now id) := by
  have moves {id : NodeId} (moved : next (now id) ≠ id) : now id ≠ id ∨ next (now id) ≠ now id := by
    by_contra both
    rw [not_or, not_not, not_not] at both
    exact moved (both.2.trans both.1)
  refine ⟨Nat.le_trans reissued.size further.size,
    fun isAttached => further.attached (reissued.attached isAttached), fun {id} isAttached => ?_,
    fun first second same => ?_, fun isAttached => ?_, fun isAttached kept => ?_,
    fun isAttached moved => ?_, fun isAttached moved => ?_, fun isAttached moved => ?_,
    fun {id} isAttached moved => ?_⟩
  · obtain ⟨between, betweenAttached, rfl⟩ := further.exists_before isAttached
    obtain ⟨before, beforeAttached, rfl⟩ := reissued.exists_before betweenAttached
    exact ⟨before, beforeAttached, rfl⟩
  · exact reissued.injective first second
      (further.injective (reissued.attached first) (reissued.attached second) same)
  · rw [further.parent? (reissued.attached isAttached), reissued.parent? isAttached]
  · have first := reissued.now_eq_self linked isTop further isAttached kept
    have isAttachedAfter := reissued.attached isAttached
    rw [first] at kept isAttachedAfter
    rw [further.node isAttachedAfter kept, reissued.node isAttached first, Node.map_map]
  · rcases moves moved with moved | moved
    · exact reissued.isIdentifier isAttached moved
    · rw [← reissued.isIdentifier_eq isAttached]
      exact further.isIdentifier (reissued.attached isAttached) moved
  · rw [further.isIdentifier_eq (reissued.attached isAttached)]
    rcases moves moved with moved | moved
    · exact reissued.isIdentifier_now isAttached moved
    · exact further.isIdentifier (reissued.attached isAttached) moved
  · rcases moves moved with moved | moved
    · exact reissued.isRead isAttached moved
    · exact (reissued.isRead_now linked isTop afterLinked isAttached).mp
        (further.isRead (reissued.attached isAttached) moved)
  · by_cases movedLast : next (now id) = now id
    · rw [movedLast] at moved ⊢
      exact reissued.isNew isAttached moved
    · exact fun isAllocated => further.isNew (reissued.attached isAttached) movedLast
        (Nat.lt_of_lt_of_le isAllocated reissued.size)

end Reissued

/-! ### One identifier is given anew -/

theorem IsRead.exists_parent (isRead : t.IsRead id) : ∃ parent, id ∈ (t.node parent).children := by
  cases isRead with
  | @initializer declarator _ shape => exact ⟨declarator, by simp [shape, Node.children]⟩
  | @callee call _ shape => exact ⟨call, by simp [shape, Node.children]⟩
  | @base member _ _ shape => exact ⟨member, by simp [shape, Node.children]⟩

theorem Linked.reissued_replace (linked : t.Linked) (isTop : t.IsTop root) (grows : t.Grows mid)
    (loose : t.Loose mid new) (isNewIdentifier : (mid.node new).isIdentifier = true)
    (isAttached : t.isWithin old root = true) (isIdentifier : (t.node old).isIdentifier = true)
    (isRead : t.IsRead old) : t.Reissued (mid.replace old new) root (Node.exchange old new) := by
  obtain ⟨parent, member⟩ := isRead.exists_parent
  have held := linked.mem_children.mp member
  have allocated {id : NodeId} (inside : t.isWithin id root = true) : t.Allocated id :=
    linked.allocated_of_isWithin inside isTop.allocated
  have heldMid : mid.parent? old = some parent := (grows.parent? (allocated isAttached)).trans held
  have edited := edited_replace grows.linked heldMid loose.detached loose.allocated
  have different : new ≠ old := fun same => loose.new (same ▸ allocated isAttached)
  have notRoot : some new ≠ some root :=
    fun same => loose.new (Option.some.inj same ▸ isTop.allocated)
  -- Neither of the two identifiers holds anything.
  have alone : mid.isWithin old new = false := by
    rw [Bool.eq_false_iff]
    exact fun within =>
      different (grows.linked.eq_of_isWithin_identifier isNewIdentifier within).symm
  have possible : mid.Exchangeable old (some new) :=
    ⟨⟨parent, heldMid⟩, fun _ same => Option.some.inj same ▸ loose.detached,
      fun _ same => Option.some.inj same ▸ loose.allocated, alone⟩
  have below {id : NodeId} : mid.isWithin id old = true ↔ id = old := by
    refine ⟨grows.linked.eq_of_isWithin_identifier ?_, fun same => same ▸ isWithin_self⟩
    rw [grows.node (allocated isAttached), isIdentifier]
  have attached_iff {id : NodeId} : (mid.replace old new).isWithin id root = true ↔
      (t.isWithin id root = true ∧ id ≠ old) ∨ id = new := by
    rw [edited.isWithin_root_iff grows.linked possible (grows.isTop isTop.allocated isTop.top).2
      ((grows.isWithin linked isTop.allocated).trans isAttached) notRoot,
      grows.isWithin linked isTop.allocated, ← Bool.not_eq_true, below, isIncoming_some]
    refine or_congr_right ⟨grows.linked.eq_of_isWithin_identifier isNewIdentifier,
      fun same => same ▸ isWithin_self⟩
  have moved_iff {id : NodeId} : Node.exchange old new id ≠ id ↔ id = old := by
    rw [Node.exchange]
    split
    · rename_i same
      simp [same, different]
    · rename_i apart
      simp [apart]
  refine ⟨Nat.le_trans grows.size (Nat.le_of_eq edited.size.symm), fun {id} inside => ?_,
    fun {id} inside => ?_, fun {a b} first second same => ?_, fun {id} inside => ?_,
    fun {id} inside kept => ?_, fun inside moved => ?_, fun inside moved => ?_,
    fun inside moved => ?_, fun inside moved => ?_⟩
  · by_cases isOld : id = old
    · rw [isOld, Node.exchange, if_pos rfl]
      exact attached_iff.mpr (.inr rfl)
    · rw [Node.exchange_of_ne isOld]
      exact attached_iff.mpr (.inl ⟨inside, isOld⟩)
  · rcases attached_iff.mp inside with ⟨before, isOther⟩ | rfl
    · exact ⟨id, before, Node.exchange_of_ne isOther⟩
    · exact ⟨old, isAttached, if_pos rfl⟩
  · have apart {id : NodeId} (inside : t.isWithin id root = true) : id ≠ new :=
      fun isNew => loose.new (isNew ▸ allocated inside)
    rw [Node.exchange, Node.exchange] at same
    have notFirst := apart first
    have notSecond := apart second
    split at same <;> split at same <;> simp_all
  · by_cases isOld : id = old
    · rw [isOld, Node.exchange, if_pos rfl, edited.parent?_new possible rfl,
        grows.parent? (allocated isAttached)]
    · rw [Node.exchange_of_ne isOld, edited.parent?_of_ne isOld, grows.parent? (allocated inside)]
      exact fun isNew => loose.new (Option.some.inj isNew ▸ allocated inside)
  · rw [node_replace grows.linked heldMid, grows.node (allocated inside)]
  · rwa [moved_iff.mp moved]
  · rw [moved_iff.mp moved, Node.exchange, if_pos rfl, edited.isIdentifier]
    exact isNewIdentifier
  · rwa [moved_iff.mp moved]
  · rw [moved_iff.mp moved, Node.exchange, if_pos rfl]
    exact loose.new

end Tree

end Unravel
