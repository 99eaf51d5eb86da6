import Mathlib.Data.List.Nodup
import Unravel.Proofs.Syntax.Part
import Unravel.Tree.Basic

/-!
Stores whose links are intact: a node is listed by its parent, once, and by no other node, and
no node lies above itself.

Main statements: the walks of `Tree.ancestors` and `Tree.descendants` are long enough, so both
satisfy the equations of unbounded walks, and a node is among the descendants of another one
exactly when it lies within it.

Stores that grow. Allocation leaves what was there as it was (`Tree.Grows`) and gives a new node
that nothing holds (`Tree.Loose`); only new nodes find their way below new ones.
-/

namespace Unravel.Tree

structure Linked (t : Tree) : Prop where
  mem_children : ∀ {parent child : NodeId},
    child ∈ (t.node parent).children ↔ t.parent? child = some parent
  nodup_children : ∀ id : NodeId, (t.node id).children.Nodup
  wellFounded : WellFounded fun parent child => t.parent? child = some parent

/-- Whether a handle was ever given out. -/
def Allocated (t : Tree) (id : NodeId) : Prop := id.index < t.size

instance (t : Tree) (id : NodeId) : Decidable (t.Allocated id) :=
  inferInstanceAs (Decidable (id.index < t.size))

variable {t : Tree} {id parent child : NodeId}

theorem node_of_not_allocated (missing : ¬t.Allocated id) : t.node id = .empty := by
  have outside : t.entries[id.index]? = none := Array.getElem?_eq_none (Nat.le_of_not_lt missing)
  simp [Tree.node, outside]

theorem allocated_of_parent? (held : t.parent? child = some parent) : t.Allocated child := by
  unfold Tree.parent? at held
  obtain ⟨entry, found, -⟩ := Option.bind_eq_some_iff.mp held
  exact (Array.getElem?_eq_some_iff.mp found).choose

theorem allocated_of_mem_children (member : child ∈ (t.node parent).children) :
    t.Allocated parent := by
  by_cases allocated : t.Allocated parent
  · exact allocated
  · rw [node_of_not_allocated allocated] at member
    simp [Node.children] at member

/-! ### Ancestors -/

theorem ancestors_of_root (top : t.parent? id = none) : t.ancestors id = [] := by
  unfold ancestors
  cases t.size <;> simp [ancestorsWithin, top]

namespace Linked

/-- Induction from the roots downwards. -/
theorem induction {motive : NodeId → Prop} (linked : t.Linked)
    (step : ∀ id, (∀ parent, t.parent? id = some parent → motive parent) → motive id)
    (id : NodeId) : motive id :=
  linked.wellFounded.induction id step

theorem parent?_ne_self (linked : t.Linked) (id : NodeId) : t.parent? id ≠ some id := by
  induction id using linked.induction with
  | step id induction => exact fun held => induction id held held

theorem allocated_parent (linked : t.Linked) (held : t.parent? child = some parent) :
    t.Allocated parent :=
  allocated_of_mem_children (linked.mem_children.mpr held)

theorem not_transGen_self (linked : t.Linked) (id : NodeId) :
    ¬Relation.TransGen (fun parent child => t.parent? child = some parent) id id := by
  induction id using linked.wellFounded.transGen.induction with
  | h id induction => exact fun loop => induction id loop loop

private theorem exists_ancestors (linked : t.Linked) (id : NodeId) :
    ∃ above : List NodeId, (∀ limit, t.ancestorsWithin limit id = above.take limit) ∧
      above.Nodup ∧
      ∀ a ∈ above, t.Allocated a ∧
        Relation.TransGen (fun parent child => t.parent? child = some parent) a id := by
  induction id using linked.induction with
  | step id induction =>
    cases held : t.parent? id with
    | none =>
      refine ⟨[], fun limit => ?_, List.nodup_nil, by simp⟩
      cases limit <;> simp [ancestorsWithin, held]
    | some parent =>
      obtain ⟨above, walk, distinct, members⟩ := induction parent held
      refine ⟨parent :: above, fun limit => ?_, ?_, ?_⟩
      · cases limit with
        | zero => rfl
        | succ limit => simp [ancestorsWithin, held, walk]
      · refine List.nodup_cons.mpr ⟨fun member => ?_, distinct⟩
        exact linked.not_transGen_self parent (members parent member).2
      · intro a member
        rcases List.mem_cons.mp member with rfl | member
        · exact ⟨linked.allocated_parent held, .single held⟩
        · exact ⟨(members a member).1, (members a member).2.tail held⟩

end Linked

theorem length_le_size {l : List NodeId} (distinct : l.Nodup) (members : ∀ a ∈ l, t.Allocated a) :
    l.length ≤ t.size := by
  have injective : Function.Injective NodeId.index := fun a b same => by
    cases a
    cases b
    cases same
    rfl
  have indices : (l.map NodeId.index).Nodup := distinct.map injective
  have bounded : l.map NodeId.index ⊆ List.range t.size := by
    intro index member
    obtain ⟨a, held, rfl⟩ := List.mem_map.mp member
    exact List.mem_range.mpr (members a held)
  simpa using indices.length_le_of_subset bounded

namespace Linked

private theorem exists_all_ancestors (linked : t.Linked) (id : NodeId) :
    ∃ above : List NodeId, (∀ limit, t.ancestorsWithin limit id = above.take limit) ∧
      t.ancestors id = above ∧ (id :: above).Nodup ∧ ∀ a ∈ above, t.Allocated a := by
  obtain ⟨above, walk, distinct, members⟩ := linked.exists_ancestors id
  have bound : above.length ≤ t.size :=
    length_le_size distinct fun a member => (members a member).1
  refine ⟨above, walk, ?_, ?_, fun a member => (members a member).1⟩
  · rw [ancestors, walk, List.take_of_length_le bound]
  · refine List.nodup_cons.mpr ⟨fun member => ?_, distinct⟩
    exact linked.not_transGen_self id (members id member).2

theorem ancestors_of_parent (linked : t.Linked) (held : t.parent? id = some parent) :
    t.ancestors id = parent :: t.ancestors parent := by
  obtain ⟨above, walk, complete, -⟩ := linked.exists_all_ancestors parent
  obtain ⟨outer, outerWalk, outerComplete, distinct, members⟩ := linked.exists_all_ancestors id
  have whole : outer.length + 1 ≤ t.size :=
    length_le_size distinct fun a member => by
      rcases List.mem_cons.mp member with rfl | member
      · exact allocated_of_parent? held
      · exact members a member
  have step : outer = parent :: above.take (t.size - 1) := by
    rw [← outerComplete, ancestors]
    obtain ⟨limit, size⟩ : ∃ limit, t.size = limit + 1 := ⟨t.size - 1, by omega⟩
    simp [size, ancestorsWithin, held, walk]
  rw [outerComplete, complete, step]
  rw [step, List.length_cons, List.length_take] at whole
  rw [List.take_of_length_le (by omega)]

theorem notMem_ancestors (linked : t.Linked) (id : NodeId) : id ∉ t.ancestors id := by
  obtain ⟨above, -, complete, distinct, -⟩ := linked.exists_all_ancestors id
  rw [complete]
  exact (List.nodup_cons.mp distinct).1

theorem nodup_ancestors (linked : t.Linked) (id : NodeId) : (id :: t.ancestors id).Nodup := by
  obtain ⟨above, -, complete, distinct, -⟩ := linked.exists_all_ancestors id
  rwa [complete]

theorem allocated_of_mem_ancestors (linked : t.Linked) {outer : NodeId}
    (member : outer ∈ t.ancestors id) : t.Allocated outer := by
  obtain ⟨above, -, complete, -, members⟩ := linked.exists_all_ancestors id
  rw [complete] at member
  exact members outer member

theorem length_ancestors_lt (linked : t.Linked) (allocated : t.Allocated id) :
    (t.ancestors id).length < t.size := by
  have bound := length_le_size (t := t) (linked.nodup_ancestors id) fun a member => by
    rcases List.mem_cons.mp member with rfl | member
    · exact allocated
    · exact linked.allocated_of_mem_ancestors member
  exact Nat.lt_of_succ_le bound

/-- An ancestor is the parent or an ancestor of the parent. -/
theorem mem_ancestors_iff (linked : t.Linked) {outer : NodeId} :
    outer ∈ t.ancestors id ↔
      ∃ parent, t.parent? id = some parent ∧ (outer = parent ∨ outer ∈ t.ancestors parent) := by
  cases held : t.parent? id with
  | none => simp [ancestors_of_root held]
  | some parent => simp [linked.ancestors_of_parent held]

theorem mem_ancestors_trans (linked : t.Linked) {inner middle outer : NodeId}
    (first : outer ∈ t.ancestors middle) (second : middle ∈ t.ancestors inner) :
    outer ∈ t.ancestors inner := by
  induction inner using linked.induction with
  | step inner induction =>
    obtain ⟨parent, held, place⟩ := linked.mem_ancestors_iff.mp second
    refine linked.mem_ancestors_iff.mpr ⟨parent, held, .inr ?_⟩
    rcases place with rfl | place
    · exact first
    · exact induction parent held place

end Linked

/-! ### Lying within -/

theorem isWithin_iff {outer : NodeId} :
    t.isWithin id outer = true ↔ id = outer ∨ outer ∈ t.ancestors id := by
  simp [isWithin]

@[simp] theorem isWithin_self : t.isWithin id id = true := isWithin_iff.mpr (.inl rfl)

theorem isWithin_of_root {outer : NodeId} (top : t.parent? id = none) :
    t.isWithin id outer = true ↔ id = outer := by
  simp [isWithin_iff, ancestors_of_root top]

namespace Linked

theorem isWithin_of_parent (linked : t.Linked) (held : t.parent? child = some parent) :
    t.isWithin child parent = true :=
  isWithin_iff.mpr (.inr (linked.mem_ancestors_iff.mpr ⟨parent, held, .inl rfl⟩))

theorem isWithin_trans (linked : t.Linked) {inner middle outer : NodeId}
    (first : t.isWithin inner middle = true) (second : t.isWithin middle outer = true) :
    t.isWithin inner outer = true := by
  rw [isWithin_iff] at *
  rcases first with rfl | first
  · exact second
  · rcases second with rfl | second
    · exact .inr first
    · exact .inr (linked.mem_ancestors_trans second first)

/-- Of a node other than `outer` itself, whether it lies within `outer` is decided by its
parent. -/
theorem isWithin_parent (linked : t.Linked) {outer : NodeId}
    (held : t.parent? child = some parent) (different : child ≠ outer) :
    t.isWithin child outer = t.isWithin parent outer := by
  rw [Bool.eq_iff_iff, isWithin_iff, isWithin_iff, linked.ancestors_of_parent held, List.mem_cons]
  simp [different, eq_comm]

theorem isWithin_antisymm (linked : t.Linked) {a b : NodeId} (first : t.isWithin a b = true)
    (second : t.isWithin b a = true) : a = b := by
  rw [isWithin_iff] at first second
  rcases first with same | first
  · exact same
  · rcases second with same | second
    · exact same.symm
    · exact absurd (linked.mem_ancestors_trans first second) (linked.notMem_ancestors _)

theorem ne_of_isWithin_child (linked : t.Linked) (held : t.parent? child = some parent)
    (within : t.isWithin id child = true) : id ≠ parent := by
  rintro rfl
  have same := linked.isWithin_antisymm within (linked.isWithin_of_parent held)
  exact linked.parent?_ne_self _ (held.trans (congrArg some same))

/-- Two nodes around a third one lie within each other. -/
theorem isWithin_linear (linked : t.Linked) {inner a b : NodeId}
    (first : t.isWithin inner a = true) (second : t.isWithin inner b = true) :
    t.isWithin a b = true ∨ t.isWithin b a = true := by
  induction inner using linked.induction with
  | step inner induction =>
    by_cases atFirst : inner = a
    · exact .inl (atFirst ▸ second)
    · by_cases atSecond : inner = b
      · exact .inr (atSecond ▸ first)
      · cases held : t.parent? inner with
        | none => exact absurd ((isWithin_of_root held).mp first) atFirst
        | some parent =>
          rw [linked.isWithin_parent held atFirst] at first
          rw [linked.isWithin_parent held atSecond] at second
          exact induction parent held first second

theorem allocated_of_isWithin (linked : t.Linked) {outer : NodeId}
    (within : t.isWithin id outer = true) (allocated : t.Allocated outer) : t.Allocated id := by
  rcases isWithin_iff.mp within with rfl | member
  · exact allocated
  · obtain ⟨parent, held, -⟩ := linked.mem_ancestors_iff.mp member
    exact allocated_of_parent? held

/-- Different children of a node have nothing in common. -/
theorem eq_of_isWithin_children (linked : t.Linked) {inner a b : NodeId}
    (firstHeld : t.parent? a = some parent) (secondHeld : t.parent? b = some parent)
    (first : t.isWithin inner a = true) (second : t.isWithin inner b = true) : a = b := by
  have aux {a b : NodeId} (firstHeld : t.parent? a = some parent)
      (secondHeld : t.parent? b = some parent) (within : t.isWithin a b = true) : a = b := by
    rcases isWithin_iff.mp within with same | member
    · exact same
    · obtain ⟨above, held, place⟩ := linked.mem_ancestors_iff.mp member
      rw [firstHeld, Option.some.injEq] at held
      subst held
      have loop : parent ∈ t.ancestors parent := by
        rcases place with same | place
        · subst same
          exact linked.mem_ancestors_iff.mpr ⟨b, secondHeld, .inl rfl⟩
        · exact linked.mem_ancestors_trans
            (linked.mem_ancestors_iff.mpr ⟨parent, secondHeld, .inl rfl⟩) place
      exact absurd loop (linked.notMem_ancestors _)
  rcases linked.isWithin_linear first second with within | within
  · exact aux firstHeld secondHeld within
  · exact (aux secondHeld firstHeld within).symm

/-! ### Descendants -/

/-- Induction from the leaves upwards. -/
theorem induction_children {motive : ∀ id, t.Allocated id → Prop} (linked : t.Linked)
    (step : ∀ id (allocated : t.Allocated id),
      (∀ child (held : t.parent? child = some id), motive child (allocated_of_parent? held)) →
        motive id allocated)
    (id : NodeId) (allocated : t.Allocated id) : motive id allocated := by
  -- On the number of levels that may lie below `id`.
  generalize room : t.size - (t.ancestors id).length = levels
  induction levels generalizing id with
  | zero =>
    have := linked.length_ancestors_lt allocated
    omega
  | succ levels induction =>
    refine step id allocated fun child held => induction child (allocated_of_parent? held) ?_
    rw [linked.ancestors_of_parent held, List.length_cons]
    omega

theorem within_eq {β : Type} {walk : Nat → NodeId → β} {step : NodeId → (NodeId → β) → β}
    (linked : t.Linked) (unfold_ : ∀ limit id, walk (limit + 1) id = step id (walk limit))
    (local_ : ∀ id f g, (∀ child ∈ (t.node id).children, f child = g child) → step id f = step id g)
    {limit : Nat} (allocated : t.Allocated id) (enough : t.size ≤ limit + (t.ancestors id).length) :
    walk limit id = walk t.size id := by
  have room := linked.length_ancestors_lt allocated
  -- More levels than suffice make no difference.
  have grow (limit : Nat) (id : NodeId) (allocated : t.Allocated id)
      (enough : t.size ≤ limit + (t.ancestors id).length) :
      walk (limit + 1) id = walk limit id := by
    induction limit generalizing id with
    | zero =>
      have := linked.length_ancestors_lt allocated
      omega
    | succ limit induction =>
      rw [unfold_, unfold_ limit]
      apply local_
      intro child member
      have held := linked.mem_children.mp member
      refine induction child (allocated_of_parent? held) ?_
      rw [linked.ancestors_of_parent held, List.length_cons]
      omega
  have extend (first extra : Nat) (enough : t.size ≤ first + (t.ancestors id).length) :
      walk (first + extra) id = walk first id := by
    induction extra with
    | zero => rfl
    | succ extra induction =>
      rw [← Nat.add_assoc, grow (first + extra) id allocated (by omega), induction]
  rcases Nat.le_total limit t.size with le | le
  · obtain ⟨extra, sum⟩ := Nat.exists_eq_add_of_le le
    rw [sum, extend limit extra enough]
  · obtain ⟨extra, sum⟩ := Nat.exists_eq_add_of_le le
    rw [sum, extend t.size extra (by omega)]

theorem walk_eq {β : Type} (linked : t.Linked) (walk : Nat → NodeId → β)
    (step : NodeId → (NodeId → β) → β)
    (unfold_ : ∀ limit id, walk (limit + 1) id = step id (walk limit))
    (local_ : ∀ id f g, (∀ child ∈ (t.node id).children, f child = g child) → step id f = step id g)
    (allocated : t.Allocated id) : walk t.size id = step id (walk t.size) := by
  have room := linked.length_ancestors_lt allocated
  obtain ⟨limit, size⟩ : ∃ limit, t.size = limit + 1 := ⟨t.size - 1, by omega⟩
  have first : walk t.size id = step id (walk limit) := by rw [size, unfold_]
  rw [first]
  apply local_
  intro child member
  have held := linked.mem_children.mp member
  refine linked.within_eq unfold_ local_ (allocated_of_parent? held) ?_
  rw [linked.ancestors_of_parent held, List.length_cons]
  omega

theorem descendants_eq (linked : t.Linked) (allocated : t.Allocated id) :
    t.descendants id = id :: (t.node id).children.flatMap t.descendants := by
  refine linked.walk_eq t.descendantsWithin
    (fun id below => id :: (t.node id).children.flatMap below) (fun _ _ => rfl) ?_ allocated
  intro id f g same
  rw [List.flatMap_def, List.flatMap_def, List.map_congr_left same]

theorem mem_descendants_iff (linked : t.Linked) {outer : NodeId} (allocated : t.Allocated outer) :
    id ∈ t.descendants outer ↔ t.isWithin id outer = true := by
  induction outer, allocated using linked.induction_children with
  | step outer allocated induction =>
    rw [linked.descendants_eq allocated, List.mem_cons, List.mem_flatMap]
    constructor
    · rintro (rfl | ⟨child, member, below⟩)
      · exact isWithin_self
      · have held := linked.mem_children.mp member
        have within := (induction child held).mp below
        exact linked.isWithin_trans within (linked.isWithin_of_parent held)
    · intro within
      -- The child of `outer` on the way down to `id`.
      have found : ∀ inner, t.isWithin inner outer = true → inner = outer ∨
          ∃ child, t.parent? child = some outer ∧ t.isWithin inner child = true := by
        intro inner
        induction inner using linked.induction with
        | step inner downward =>
          intro within
          by_cases same : inner = outer
          · exact .inl same
          · cases held : t.parent? inner with
            | none => exact absurd ((isWithin_of_root held).mp within) same
            | some parent =>
              rw [linked.isWithin_parent held same] at within
              rcases downward parent held within with rfl | ⟨child, childHeld, below⟩
              · exact .inr ⟨inner, held, isWithin_self⟩
              · exact .inr ⟨child, childHeld,
                  linked.isWithin_trans (linked.isWithin_of_parent held) below⟩
      rcases found id within with same | ⟨child, held, below⟩
      · exact .inl same
      · exact .inr ⟨child, linked.mem_children.mpr held,
          (induction child held).mpr below⟩

theorem nodup_descendants (linked : t.Linked) (allocated : t.Allocated id) :
    (t.descendants id).Nodup := by
  induction id, allocated using linked.induction_children with
  | step id allocated induction =>
    rw [linked.descendants_eq allocated, List.nodup_cons]
    constructor
    · intro member
      obtain ⟨child, childMember, below⟩ := List.mem_flatMap.mp member
      have held := linked.mem_children.mp childMember
      have within := (linked.mem_descendants_iff (allocated_of_parent? held)).mp below
      have same := linked.isWithin_antisymm within (linked.isWithin_of_parent held)
      rw [← same] at held
      exact linked.parent?_ne_self _ held
    · rw [List.nodup_flatMap]
      refine ⟨fun child member => ?_, ?_⟩
      · exact induction child (linked.mem_children.mp member)
      · refine (linked.nodup_children id).imp_of_mem ?_
        intro a b firstMember secondMember different
        have firstHeld := linked.mem_children.mp firstMember
        have secondHeld := linked.mem_children.mp secondMember
        intro inner first second
        exact different (linked.eq_of_isWithin_children firstHeld secondHeld
          ((linked.mem_descendants_iff (allocated_of_parent? firstHeld)).mp first)
          ((linked.mem_descendants_iff (allocated_of_parent? secondHeld)).mp second))

/-- What lies below a node lies below one of its children. -/
theorem exists_child (linked : t.Linked) {inner outer : NodeId}
    (within : t.isWithin inner outer = true) (different : inner ≠ outer) :
    ∃ child ∈ (t.node outer).children, t.isWithin inner child = true := by
  induction inner using linked.induction with
  | step inner induction =>
    cases held : t.parent? inner with
    | none => exact absurd ((isWithin_of_root held).mp within) different
    | some parent =>
      rw [linked.isWithin_parent held different] at within
      by_cases same : parent = outer
      · exact ⟨inner, linked.mem_children.mpr (same ▸ held), isWithin_self⟩
      · obtain ⟨child, member, below⟩ := induction parent held within same
        exact ⟨child, member, linked.isWithin_trans (linked.isWithin_of_parent held) below⟩

/-- What lies below a node hangs on something that is not above that node. -/
theorem exists_parent_of_isWithin (linked : t.Linked) {outer : NodeId}
    (within : t.isWithin id outer = true) (different : id ≠ outer) :
    ∃ parent, t.parent? id = some parent ∧ t.isWithin parent outer = true := by
  rcases isWithin_iff.mp within with same | above
  · exact absurd same different
  · obtain ⟨parent, held, -⟩ := linked.mem_ancestors_iff.mp above
    exact ⟨parent, held, by rwa [← linked.isWithin_parent held different]⟩

end Linked

/-! ### A test of links

It is for stores in which parents come after their children, as they do when they are allocated. -/

def checksAt (t : Tree) (id : NodeId) : Bool :=
  decide (t.node id).children.Nodup &&
    (t.node id).children.all (fun child => t.parent? child = some id) &&
    (t.parent? id).all fun parent =>
      id.index < parent.index && parent.index < t.size && id ∈ (t.node parent).children

def checks (t : Tree) : Bool := (List.range t.size).all fun index => t.checksAt ⟨index⟩

theorem linked_of_checks {t : Tree} (passes : t.checks = true) : t.Linked := by
  have each {id : NodeId} (allocated : t.Allocated id) : (t.node id).children.Nodup ∧
      (∀ child ∈ (t.node id).children, t.parent? child = some id) ∧
      ∀ parent, t.parent? id = some parent →
        id.index < parent.index ∧ parent.index < t.size ∧ id ∈ (t.node parent).children := by
    have at_ := List.all_eq_true.mp passes id.index (List.mem_range.mpr allocated)
    simp only [checksAt, Bool.and_eq_true, decide_eq_true_eq, List.all_eq_true,
      Option.all_eq_true] at at_
    exact ⟨at_.1.1, at_.1.2, fun parent held => ⟨(at_.2 parent held).1.1, (at_.2 parent held).1.2,
      (at_.2 parent held).2⟩⟩
  refine ⟨fun {parent child} => ⟨fun member => ?_, fun held => ?_⟩, fun id => ?_, ⟨fun id => ?_⟩⟩
  · exact (each (allocated_of_mem_children member)).2.1 child member
  · exact ((each (allocated_of_parent? held)).2.2 parent held).2.2
  · by_cases allocated : t.Allocated id
    · exact (each allocated).1
    · rw [node_of_not_allocated allocated]
      exact List.nodup_nil
  · -- Going up, the handles grow, but stay below the number of entries.
    have ascending (distance : Nat) : ∀ id : NodeId, t.size - id.index ≤ distance →
        Acc (fun parent child => t.parent? child = some parent) id := by
      induction distance with
      | zero =>
        refine fun id beyond => ⟨id, fun parent held => ?_⟩
        have allocated : id.index < t.size := allocated_of_parent? held
        omega
      | succ distance induction =>
        refine fun id near => ⟨id, fun parent held => induction parent ?_⟩
        have above := (each (allocated_of_parent? held)).2.2 parent held
        omega
    exact ascending _ id (Nat.le_refl _)

variable {mid after : Tree} {other : NodeId} {node : Node NodeId}

/-! ### Allocation -/

theorem parent?_adopt {parent : NodeId} {children : List NodeId}
    (allocated : ∀ child ∈ children, t.Allocated child) :
    (t.adopt parent children).parent? other =
      if other ∈ children then some parent else t.parent? other := by
  induction children generalizing t with
  | nil => simp [adopt]
  | cons head rest induction =>
    rw [List.forall_mem_cons] at allocated
    have restAllocated : ∀ child ∈ rest, (t.setParent head (some parent)).Allocated child := by
      intro child member
      rw [Allocated, size_setParent]
      exact allocated.2 child member
    change ((t.setParent head (some parent)).adopt parent rest).parent? other = _
    rw [induction restAllocated, parent?_setParent _ allocated.1]
    by_cases isHead : other = head <;> by_cases inRest : other ∈ rest <;> simp [isHead, inRest]

theorem parent?_alloc (allocated : ∀ child ∈ node.children, t.Allocated child) :
    (alloc node t).2.parent? other =
      if other ∈ node.children then some ⟨t.size⟩ else t.parent? other := by
  rw [← parent?_adopt allocated]
  have adopted := t.size_adopt ⟨t.size⟩ node.children
  simp only [size] at adopted
  simp only [alloc, parent?, size]
  grind

theorem not_allocated_next (t : Tree) : ¬t.Allocated ⟨t.size⟩ := Nat.lt_irrefl t.size

theorem allocated_alloc : (alloc node t).2.Allocated id ↔ t.Allocated id ∨ id = ⟨t.size⟩ := by
  cases id
  simp only [Allocated, size_alloc, NodeId.mk.injEq]
  omega

theorem Linked.parent?_of_not_allocated (missing : ¬t.Allocated id) : t.parent? id = none := by
  cases held : t.parent? id with
  | none => rfl
  | some parent => exact absurd (allocated_of_parent? held) missing

theorem Linked.alloc (linked : t.Linked) (allocated : ∀ child ∈ node.children, t.Allocated child)
    (detached : ∀ child ∈ node.children, t.parent? child = none) (distinct : node.children.Nodup) :
    (alloc node t).2.Linked := by
  have notNext {child : NodeId} (held : t.parent? child = some ⟨t.size⟩) : False :=
    t.not_allocated_next (linked.allocated_parent held)
  refine ⟨fun {parent child} => ?_, fun id => ?_, ⟨fun id => ?_⟩⟩
  · rw [node_alloc, parent?_alloc allocated]
    by_cases isNext : parent = ⟨t.size⟩
    · rw [if_pos isNext, isNext]
      by_cases member : child ∈ node.children
      · simp [member]
      · rw [if_neg member, iff_false_left member]
        exact notNext
    · rw [if_neg isNext, linked.mem_children]
      by_cases member : child ∈ node.children
      · rw [if_pos member, detached child member]
        simpa using Ne.symm isNext
      · rw [if_neg member]
  · rw [node_alloc]
    split
    · exact distinct
    · exact linked.nodup_children id
  · have nextTop : (Tree.alloc node t).2.parent? ⟨t.size⟩ = none := by
      rw [parent?_alloc allocated, if_neg]
      · exact parent?_of_not_allocated t.not_allocated_next
      · exact fun member => t.not_allocated_next (allocated _ member)
    have next : Acc (fun parent child => (Tree.alloc node t).2.parent? child = some parent)
        ⟨t.size⟩ :=
      ⟨_, fun parent held => by rw [nextTop] at held; cases held⟩
    induction id using linked.induction with
    | step id induction =>
      refine ⟨id, fun parent held => ?_⟩
      rw [parent?_alloc allocated] at held
      split at held
      · cases held
        exact next
      · exact induction parent held

/-! ### Growth -/

/-- What was there stays as it was. -/
structure Grows (t after : Tree) : Prop where
  linked : after.Linked
  size : t.size ≤ after.size
  node : ∀ {id}, t.Allocated id → after.node id = t.node id
  parent? : ∀ {id}, t.Allocated id → after.parent? id = t.parent? id

/-- A node that was not there before and that nothing holds. -/
structure Loose (t after : Tree) (id : NodeId) : Prop where
  new : ¬t.Allocated id
  allocated : after.Allocated id
  detached : after.parent? id = none

namespace Grows

theorem refl (linked : t.Linked) : t.Grows t := ⟨linked, Nat.le_refl _, fun _ => rfl, fun _ => rfl⟩

theorem allocated (grows : t.Grows after) (isAllocated : t.Allocated id) : after.Allocated id :=
  Nat.lt_of_lt_of_le isAllocated grows.size

theorem trans (first : t.Grows mid) (second : mid.Grows after) : t.Grows after where
  linked := second.linked
  size := Nat.le_trans first.size second.size
  node isAllocated := by rw [second.node (first.allocated isAllocated), first.node isAllocated]
  parent? isAllocated := by
    rw [second.parent? (first.allocated isAllocated), first.parent? isAllocated]

theorem alloc (grows : t.Grows mid) (node : Node NodeId)
    (loose : ∀ child ∈ node.children, t.Loose mid child) (distinct : node.children.Nodup) :
    t.Grows (Tree.alloc node mid).2 where
  linked := grows.linked.alloc (fun child member => (loose child member).allocated)
    (fun child member => (loose child member).detached) distinct
  size := by
    rw [size_alloc]
    exact Nat.le_succ_of_le grows.size
  node {id} isAllocated := by
    rw [node_alloc, if_neg, grows.node isAllocated]
    rintro rfl
    exact mid.not_allocated_next (grows.allocated isAllocated)
  parent? {id} isAllocated := by
    rw [parent?_alloc fun child member => (loose child member).allocated, if_neg,
      grows.parent? isAllocated]
    exact fun member => (loose id member).new isAllocated

theorem loose_alloc (grows : t.Grows mid) (node : Node NodeId)
    (allocated : ∀ child ∈ node.children, mid.Allocated child) :
    t.Loose (Tree.alloc node mid).2 (Tree.alloc node mid).1 where
  new isAllocated := mid.not_allocated_next (grows.allocated isAllocated)
  allocated := allocated_alloc.mpr (.inr rfl)
  detached := by
    rw [parent?_alloc allocated, if_neg]
    · exact Linked.parent?_of_not_allocated mid.not_allocated_next
    · exact fun member => mid.not_allocated_next (allocated _ member)

theorem isTop (grows : t.Grows after) {root : NodeId} (isAllocated : t.Allocated root)
    (top : t.parent? root = none) : after.Allocated root ∧ after.parent? root = none :=
  ⟨grows.allocated isAllocated, (grows.parent? isAllocated).trans top⟩

end Grows

namespace Loose

theorem mono (loose : t.Loose mid id) (grows : mid.Grows after) : t.Loose after id :=
  ⟨loose.new, grows.allocated loose.allocated, (grows.parent? loose.allocated).trans loose.detached⟩

theorem since (loose : mid.Loose after id) (grows : t.Grows mid) : t.Loose after id :=
  ⟨fun isAllocated => loose.new (grows.allocated isAllocated), loose.allocated, loose.detached⟩

end Loose

end Unravel.Tree
