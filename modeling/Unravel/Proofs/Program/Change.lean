import Unravel.Proofs.Program.Steady

/-!
Replacements and removals that have succeeded, and where the nodes of before are afterwards: what is
part of the node that goes away leaves the program, and everything else stays where it is
(`Program.Loses`).

Programs in stores whose links are intact, whatever their tables say. A replacement, a removal and a
change of the store elsewhere lead from such a program to another one with the same root
(`Program.Follows`).
-/

namespace Unravel.Program

variable {o p mid q after : Program} {grown : Tree} {target replacement gone id : NodeId}

/-- The part below a node leaves a program, all other nodes of it stay where they are, and no other
node of before comes in. -/
structure Loses (p : Program) (gone : NodeId) (q : Program) : Prop where
  kept : ∀ {id}, p.tree.isWithin id p.root = true → p.tree.isWithin id gone = false →
    q.tree.isWithin id q.root = true ∧ q.tree.parent? id = p.tree.parent? id
  lost : ∀ {id}, p.tree.Allocated id → q.tree.isWithin id q.root = true →
    p.tree.isWithin id p.root = true ∧ p.tree.isWithin id gone = false

/-- Of the nodes of a first program some leave another one. Whatever else is part of that stays
where it is, and nothing of the first one comes in. -/
structure Drops (o p : Program) (gone : NodeId → Prop) (q : Program) : Prop where
  kept : ∀ {id}, p.tree.isWithin id p.root = true → ¬gone id →
    q.tree.isWithin id q.root = true ∧ q.tree.parent? id = p.tree.parent? id
  lost : ∀ {id}, o.tree.Allocated id → q.tree.isWithin id q.root = true →
    p.tree.isWithin id p.root = true ∧ ¬gone id

namespace Drops

theorem trans {left leftToo : NodeId → Prop} (first : Drops o p left mid)
    (second : Drops o mid leftToo q) :
    Drops o p (fun id => left id ∨ leftToo id) q where
  kept attached stays := by
    obtain ⟨attachedMid, same⟩ := first.kept attached fun leaves => stays (.inl leaves)
    obtain ⟨attachedAfter, sameToo⟩ := second.kept attachedMid fun leaves => stays (.inr leaves)
    exact ⟨attachedAfter, sameToo.trans same⟩
  lost isOld attached := by
    obtain ⟨attachedMid, stays⟩ := second.lost isOld attached
    obtain ⟨before, staysToo⟩ := first.lost isOld attachedMid
    exact ⟨before, fun leaves => leaves.elim staysToo stays⟩

theorem congr {left leftToo : NodeId → Prop} (drops : Drops o p left q)
    (same : ∀ id, p.tree.isWithin id p.root = true → (left id ↔ leftToo id)) :
    Drops o p leftToo q where
  kept attached stays := drops.kept attached ((same _ attached).not.mpr stays)
  lost isOld attached := by
    obtain ⟨before, stays⟩ := drops.lost isOld attached
    exact ⟨before, (same _ before).not.mp stays⟩

theorem older {left : NodeId → Prop} (drops : Drops mid p left q)
    (older : ∀ {id}, o.tree.Allocated id → mid.tree.Allocated id) : Drops o p left q :=
  ⟨drops.kept, fun isOld => drops.lost (older isOld)⟩

/-- What stays hangs below the same nodes as before. -/
theorem isWithin_eq {left : NodeId → Prop} (drops : Drops o p left q) (linked : p.tree.Linked)
    (afterLinked : q.tree.Linked) (isTop : p.tree.IsTop p.root)
    (closed : ∀ {id parent}, p.tree.parent? id = some parent → left parent → left id)
    {inner outer : NodeId} (attached : p.tree.isWithin inner p.root = true) (stays : ¬left inner) :
    q.tree.isWithin inner outer = p.tree.isWithin inner outer := by
  induction inner using linked.induction with
  | step inner induction =>
    have same := (drops.kept attached stays).2
    cases held : p.tree.parent? inner with
    | none =>
      rw [held] at same
      rw [Bool.eq_iff_iff, Tree.isWithin_of_root same, Tree.isWithin_of_root held]
    | some parent =>
      rw [held] at same
      by_cases isOuter : inner = outer
      · rw [isOuter, Tree.isWithin_self, Tree.isWithin_self]
      · rw [linked.isWithin_parent held isOuter, afterLinked.isWithin_parent same isOuter]
        exact induction parent held
          (linked.isWithin_root_of_above isTop attached (linked.isWithin_of_parent held))
          fun leaves => stays (closed held leaves)

/-- Changes of what hangs nowhere take nothing away. -/
theorem elsewhere {grown : Tree} (linked : p.tree.Linked) (isTop : p.tree.IsTop p.root)
    (afterLinked : grown.Linked) (unchanged : p.tree.Unchanged grown p.root) :
    Drops o p (fun _ => False) { p with tree := grown } where
  kept attached _ := by
    refine ⟨?_, unchanged.parent? attached⟩
    change grown.isWithin _ p.root = true
    rw [unchanged.isWithin_root linked afterLinked isTop.top]
    exact attached
  lost _ attached := by
    refine ⟨?_, id⟩
    change grown.isWithin _ p.root = true at attached
    rwa [unchanged.isWithin_root linked afterLinked isTop.top] at attached

theorem of_loses (loses : p.Loses target q)
    (older : ∀ {id}, o.tree.Allocated id → p.tree.Allocated id) :
    Drops o p (fun id => p.tree.isWithin id target = true) q where
  kept attached stays := loses.kept attached (Bool.eq_false_iff.mpr stays)
  lost isOld attached := by
    obtain ⟨before, stays⟩ := loses.lost (older isOld) attached
    exact ⟨before, Bool.eq_false_iff.mp stays⟩

end Drops

/-- What stays hangs below the same nodes as before. -/
theorem Loses.isWithin_eq (loses : p.Loses gone q) (linked : p.tree.Linked)
    (afterLinked : q.tree.Linked) (isTop : p.tree.IsTop p.root) {inner outer : NodeId}
    (attached : p.tree.isWithin inner p.root = true)
    (outside : p.tree.isWithin inner gone = false) :
    q.tree.isWithin inner outer = p.tree.isWithin inner outer :=
  (Drops.of_loses loses id).isWithin_eq (o := p) linked afterLinked isTop
    (fun held within => linked.isWithin_trans (linked.isWithin_of_parent held) within) attached
    (Bool.eq_false_iff.mp outside)

theorem loses_of_edited {new : Option NodeId} (linked : p.tree.Linked)
    (top : p.tree.parent? p.root = none) (edited : p.tree.Edited q.tree gone new)
    (possible : p.tree.Exchangeable gone new) (attached : p.tree.isWithin gone p.root = true)
    (root : q.root = p.root) (apart : ∀ n, new = some n → p.tree.isWithin n p.root = false) :
    ∀ id, (p.tree.isWithin id p.root = true → p.tree.isWithin id gone = false →
      q.tree.isWithin id q.root = true ∧ q.tree.parent? id = p.tree.parent? id) ∧
      (p.tree.isIncoming new id = false → q.tree.isWithin id q.root = true →
        p.tree.isWithin id p.root = true ∧ p.tree.isWithin id gone = false) := by
  have notNew : new ≠ some p.root := fun same => by
    have outside := apart p.root same
    rw [Tree.isWithin_self] at outside
    cases outside
  intro id
  rw [root, edited.isWithin_root_iff linked possible top attached notNew]
  refine ⟨fun isAttached outside => ⟨.inl ⟨isAttached, outside⟩,
    edited.parent?_of_ne ?_ fun same => ?_⟩,
    fun notIncoming kept => kept.resolve_right (by simp [notIncoming])⟩
  · rintro rfl
    rw [Tree.isWithin_self] at outside
    cases outside
  · rw [apart id same] at isAttached
    cases isAttached

theorem Loses.of_edited {new : Option NodeId} (linked : p.tree.Linked) (isTop : p.tree.IsTop p.root)
    (grows : p.tree.Grows grown) (edited : grown.Edited q.tree gone new)
    (possible : grown.Exchangeable gone new) (attached : p.tree.isWithin gone p.root = true)
    (root : q.root = p.root) (isNew : ∀ n, new = some n → p.tree.Loose grown n) :
    p.Loses gone q := by
  have same {inner outer : NodeId} (isAllocated : p.tree.Allocated inner) :
      grown.isWithin inner outer = p.tree.isWithin inner outer :=
    (grows.alike linked).isWithin linked grows.linked isAllocated outer
  have goneAllocated := linked.allocated_of_isWithin attached isTop.allocated
  have moved := loses_of_edited (p := { p with tree := grown }) grows.linked
    (grows.isTop isTop.allocated isTop.top).2 edited possible (by rw [same goneAllocated, attached])
    root fun n isSome => by
      rw [Bool.eq_false_iff, ne_eq, Tree.isWithin_of_root (isNew n isSome).detached]
      rintro rfl
      exact (isNew _ isSome).new isTop.allocated
  refine ⟨fun {id} attached outside => ?_, fun {id} isAllocated attached => ?_⟩
  · have isAllocated := linked.allocated_of_isWithin attached isTop.allocated
    rw [← grows.parent? isAllocated]
    exact (moved id).1 (by rwa [← same isAllocated] at attached)
      (by rwa [← same isAllocated] at outside)
  · rw [← same isAllocated, ← same isAllocated]
    refine (moved id).2 ?_ attached
    rw [Bool.eq_false_iff]
    intro incoming
    obtain ⟨n, isSome, within⟩ := Tree.isIncoming_iff.mp incoming
    have outside := grows.not_isWithin_new linked isAllocated (isNew n isSome).new
    rw [within] at outside
    cases outside

/-! ### Replacements -/

/-- A replacement that has succeeded. -/
structure Replaced (p : Program) (target replacement : NodeId) (after : Program) : Prop where
  sound : p.Sound
  possible : p.Replaceable target replacement
  allocated : p.tree.Allocated replacement
  placed : p.Placed (fun _ => true) target replacement (p.unwrap target replacement).2
    (p.unwrap target replacement).1 after

theorem isWithin_of_unwrap (linked : p.tree.Linked) (target replacement : NodeId) :
    p.tree.isWithin (p.unwrap target replacement).1 replacement = true ∧ ∀ {inner outer : NodeId},
      (p.unwrap target replacement).2.tree.isWithin inner outer = true →
      p.tree.isWithin inner outer = true := by
  rcases unwrap_cases linked target replacement with
    same | ⟨inner, tree, same, -, -, held, edited, possible⟩
  · rw [same]
    exact ⟨Tree.isWithin_self, id⟩
  · rw [same]
    exact ⟨linked.isWithin_of_parent held, edited.isWithin_before linked possible⟩

namespace Replaced

variable (replaced : p.Replaced target replacement after)

include replaced

theorem linked : p.tree.Linked := replaced.sound.linked

theorem attached : p.tree.isWithin target p.root = true := by
  rw [← isAttached_eq replaced.linked replaced.sound.isTop.top]
  exact replaced.possible.attached

theorem keeps_and_loses : (p.tree.isWithin id p.root = true → p.tree.isWithin id target = false →
    after.tree.isWithin id after.root = true ∧ after.tree.parent? id = p.tree.parent? id) ∧
    (p.tree.isWithin id replacement = false → after.tree.isWithin id after.root = true →
      p.tree.isWithin id p.root = true ∧ p.tree.isWithin id target = false) := by
  have linked := replaced.linked
  have isTop := replaced.sound.isTop
  have unwrapped := replaced.placed.unwrapped
  obtain ⟨part, before⟩ := isWithin_of_unwrap linked target replacement
  have result := replaced.placed
  generalize (p.unwrap target replacement).1 = placed at *
  generalize (p.unwrap target replacement).2 = q at *
  have alike := unwrapped.unchanged.alike linked isTop.top
  have same {inner outer : NodeId} (isAttached : p.tree.isWithin inner p.root = true) :
      q.tree.isWithin inner outer = p.tree.isWithin inner outer :=
    alike.isWithin linked unwrapped.linked isAttached outer
  have top : q.tree.parent? q.root = none := by
    rw [unwrapped.root, unwrapped.unchanged.parent? Tree.isWithin_self, isTop.top]
  have moved := loses_of_edited unwrapped.linked top result.edited result.possible
    (by rw [unwrapped.root, result.attached]) (by rw [result.root, unwrapped.root])
    (fun n isPlaced => by
      rw [Bool.eq_false_iff]
      intro within
      have apart := unwrapped.apart
      rw [← Option.some.inj isPlaced, unwrapped.root] at within
      rw [before within] at apart
      cases apart) id
  rw [unwrapped.root] at moved
  refine ⟨fun isAttached outside => ?_, fun outside isAttached => ?_⟩
  · rw [← unwrapped.unchanged.parent? isAttached]
    exact moved.1 (by rwa [same isAttached]) (by rwa [same isAttached])
  · obtain ⟨was, outsideTarget⟩ := moved.2 (by
      rw [Tree.isIncoming_some, Bool.eq_false_iff]
      intro within
      rw [linked.isWithin_trans (before within) part] at outside
      cases outside) isAttached
    have wasAttached := before was
    exact ⟨wasAttached, by rwa [same wasAttached] at outsideTarget⟩

theorem drops (apart : ∀ {id}, o.tree.Allocated id → p.tree.isWithin id replacement = false) :
    Drops o p (fun id => p.tree.isWithin id target = true) after where
  kept attached stays := replaced.keeps_and_loses.1 attached (Bool.eq_false_iff.mpr stays)
  lost isOld attached := by
    obtain ⟨before, stays⟩ := replaced.keeps_and_loses.2 (apart isOld) attached
    exact ⟨before, Bool.eq_false_iff.mp stays⟩

theorem exists_swapped (attached : p.tree.isWithin id p.root = true) : ∃ placed,
    (p.node id).Swapped target (some placed) (after.node id) ∧
    p.tree.isWithin placed replacement = true := by
  refine ⟨_, ?_, (isWithin_of_unwrap replaced.linked target replacement).1⟩
  rw [Program.node, ← replaced.placed.unwrapped.unchanged.node attached]
  exact replaced.placed.edited.node id

theorem edited (whole : (p.node target).isStatement = false ∨
    ∀ inner, p.node replacement ≠ .block [inner]) :
    p.tree.Edited after.tree target (some replacement) := by
  have result := replaced.placed
  rcases unwrap_cases replaced.linked target replacement with
    same | ⟨inner, _, -, isStatement, shape, -⟩
  · rw [same] at result
    exact result.edited
  · rcases whole with notStatement | notBlock
    · rw [isStatement] at notStatement
      cases notStatement
    · exact absurd shape (notBlock inner)

end Replaced

theorem Replaced.loses (linked : p.tree.Linked) (isTop : p.tree.IsTop p.root)
    (grows : p.tree.Grows grown) (isNew : ¬p.tree.Allocated replacement)
    (replaced : Program.Replaced { p with tree := grown } target replacement after) :
    p.Loses target after := by
  have same {inner outer : NodeId} (isAllocated : p.tree.Allocated inner) :
      grown.isWithin inner outer = p.tree.isWithin inner outer :=
    (grows.alike linked).isWithin linked grows.linked isAllocated outer
  refine ⟨fun {id} attached outside => ?_, fun {id} isAllocated attached => ?_⟩
  · have isAllocated := linked.allocated_of_isWithin attached isTop.allocated
    rw [← grows.parent? isAllocated]
    exact replaced.keeps_and_loses.1 (by rwa [← same isAllocated] at attached)
      (by rwa [← same isAllocated] at outside)
  · rw [← same isAllocated, ← same isAllocated]
    exact replaced.keeps_and_loses.2 (grows.not_isWithin_new linked isAllocated isNew) attached

/-! ### Removals -/

/-- What leaves for a node is the node itself unless it is the only declarator of a declaration. -/
theorem leaving_eq_self (linked : p.tree.Linked) {parent : NodeId}
    (held : p.tree.parent? target = some parent)
    (notOnly : ∀ kind only, p.node parent ≠ .variableDeclaration kind [only]) :
    p.leaving target = target := by
  rw [leaving, linked.ancestors_of_parent held, removalTarget]
  split
  · rename_i kind only shape
    exact absurd shape (notOnly kind only)
  · rfl

/-- What can be removed. -/
structure Removable (p : Program) (target : NodeId) : Prop where
  attached : p.tree.isWithin target p.root = true
  held : (p.tree.parent? (p.leaving target)).isSome = true
  optional : ∀ parent, p.tree.slot? (p.leaving target) = some (parent, .required) →
    (p.node (p.leaving target)).isStatement = true

theorem not_required_of_listed {parent holder : NodeId}
    {field : List NodeId × (List NodeId → Node NodeId)} (held : p.tree.parent? target = some parent)
    (listed : field ∈ (p.node parent).detachable.1) (member : target ∈ field.1) :
    p.tree.slot? target ≠ some (holder, .required) := by
  intro found
  simp only [Tree.slot?, held, bind, Option.bind_some, Option.bind_eq_some_iff] at found
  obtain ⟨slot, place, same⟩ := found
  cases same
  exact Node.slotOf_ne_required listed member place

namespace Steady

variable (steady : p.Steady)

include steady

theorem exists_parent_leaving (attached : p.tree.isWithin target p.root = true)
    (notRoot : target ≠ p.root) (notDeclarator : (p.node target).isDeclarator = false) :
    ∃ parent, p.tree.parent? target = some parent ∧ p.leaving target = target := by
  rcases Tree.isWithin_iff.mp attached with same | above
  · exact absurd same notRoot
  · obtain ⟨parent, held, -⟩ := steady.linked.mem_ancestors_iff.mp above
    refine ⟨parent, held, leaving_eq_self steady.linked held fun kind only shape => ?_⟩
    have member := steady.linked.mem_children.mpr held
    rw [show p.tree.node parent = .variableDeclaration kind [only] from shape] at member
    have isDeclarator : (p.node target).isDeclarator = true := by
      have isPart : target ∈ (p.node parent).part .declarators := by
        rw [shape]
        exact member
      exact steady.wellBound.declarator isPart
    rw [notDeclarator] at isDeclarator
    cases isDeclarator

theorem ne_root (notProgram : ∀ body, p.node target ≠ .program body) : target ≠ p.root := by
  rintro rfl
  obtain ⟨body, shape⟩ := steady.sound.isProgram
  exact notProgram body shape

theorem removable_statement (attached : p.tree.isWithin target p.root = true)
    (isStatement : (p.node target).isStatement = true) :
    p.Removable target ∧ p.leaving target = target := by
  have notDeclarator : (p.node target).isDeclarator = false := by
    cases shape : p.node target <;> simp_all [Node.isStatement, Node.isDeclarator]
  have notRoot : target ≠ p.root := steady.ne_root fun body shape => by
    rw [shape] at isStatement
    cases isStatement
  obtain ⟨parent, held, leaves⟩ := steady.exists_parent_leaving attached notRoot notDeclarator
  refine ⟨⟨attached, ?_, fun _ _ => ?_⟩, leaves⟩
  · rw [leaves, held]
    rfl
  · rw [leaves]
    exact isStatement

theorem removable_declarator {declaration : NodeId} {kind : VarKind} {declarators : List NodeId}
    (attached : p.tree.isWithin target p.root = true)
    (held : p.tree.parent? target = some declaration)
    (shape : p.node declaration = .variableDeclaration kind declarators) :
    p.Removable target ∧ (p.leaving target = target ∨
      p.leaving target = declaration ∧ (p.node declaration).children = [target]) := by
  have isStatement : (p.node declaration).isStatement = true := by rw [shape]; rfl
  by_cases only : declarators = [target]
  · have above := steady.linked.isWithin_root_of_above steady.isTop attached
      (steady.linked.isWithin_of_parent held)
    obtain ⟨removable, leaves⟩ := steady.removable_statement above isStatement
    have same : p.leaving target = declaration := by
      rw [only] at shape
      rw [leaving, steady.linked.ancestors_of_parent held, removalTarget, shape]
      exact leaves
    refine ⟨⟨attached, ?_, fun _ _ => ?_⟩, .inr ⟨same, ?_⟩⟩
    · rw [same, ← leaves]
      exact removable.held
    · rw [same]
      exact isStatement
    · rw [shape, only]
      rfl
  · have member := steady.linked.mem_children.mpr held
    rw [show p.tree.node declaration = .variableDeclaration kind declarators from shape] at member
    have same : p.leaving target = target := by
      refine leaving_eq_self steady.linked held fun otherKind other otherShape => only ?_
      rw [shape] at otherShape
      cases otherShape
      rw [List.mem_singleton.mp member]
    refine ⟨⟨attached, ?_, fun parent required => ?_⟩, .inl same⟩
    · rw [same, held]
      rfl
    · rw [same] at required
      have listed : (declarators, Node.variableDeclaration kind) ∈
          (p.node declaration).detachable.1 := by
        rw [shape]
        exact List.mem_singleton_self _
      exact absurd required (not_required_of_listed held listed member)

theorem removable_property {object : NodeId} {properties : List NodeId}
    (attached : p.tree.isWithin target p.root = true) (held : p.tree.parent? target = some object)
    (shape : p.node object = .object properties) :
    p.Removable target ∧ p.leaving target = target := by
  have same : p.leaving target = target :=
    leaving_eq_self steady.linked held fun kind only otherShape => by
      rw [shape] at otherShape
      cases otherShape
  refine ⟨⟨attached, ?_, fun parent required => ?_⟩, same⟩
  · rw [same, held]
    rfl
  · rw [same] at required
    have member := steady.linked.mem_children.mpr held
    rw [show p.tree.node object = .object properties from shape] at member
    have listed : (properties, Node.object) ∈ (p.node object).detachable.1 := by
      rw [shape]
      exact List.mem_singleton_self _
    exact absurd required (not_required_of_listed held listed member)

end Steady

/-- A removal that has succeeded. -/
structure Taken (p : Program) (target : NodeId) (after : Program) : Prop where
  sound : p.Sound
  attached : p.tree.isWithin target p.root = true
  removed : p.Removed (fun _ => true) (p.leaving target) after

namespace Taken

variable (taken : p.Taken target after)

include taken

theorem linked : p.tree.Linked := taken.sound.linked

theorem attached_leaving : p.tree.isWithin (p.leaving target) p.root = true :=
  taken.linked.isWithin_root_of_above taken.sound.isTop taken.attached
    (isWithin_leaving taken.linked target)

theorem held : ∃ parent, p.tree.parent? (p.leaving target) = some parent := by
  have isAllocated := taken.linked.allocated_of_isWithin taken.attached_leaving
    taken.sound.isTop.allocated
  rcases taken.removed.tree with ⟨-, possible⟩ | ⟨-, possible, -⟩
  · exact possible.held
  · obtain ⟨grows, -, -⟩ := grows_withEmpty taken.linked
    rw [← grows.parent? isAllocated]
    exact possible.held

theorem notRoot : p.leaving target ≠ p.root := by
  obtain ⟨parent, held⟩ := taken.held
  intro same
  rw [same, taken.sound.isTop.top] at held
  cases held

theorem loses : p.Loses (p.leaving target) after := by
  have linked := taken.linked
  have isTop := taken.sound.isTop
  have attached := taken.attached_leaving
  have root := taken.removed.root
  rcases taken.removed.tree with ⟨edited, possible⟩ | ⟨edited, possible, -⟩
  · exact .of_edited linked isTop (.refl linked) edited possible attached root nofun
  · obtain ⟨grows, loose, -⟩ := grows_withEmpty linked
    exact .of_edited linked isTop grows edited possible attached root
      fun n isNew => Option.some.inj isNew ▸ loose

theorem isAttached_eq_false (rooted : after.Rooted) : after.isAttached target = false := by
  rw [isAttached_eq rooted.linked rooted.isTop.top, Bool.eq_false_iff]
  intro attached
  have isAllocated := taken.linked.allocated_of_isWithin taken.attached taken.sound.isTop.allocated
  have outside := (taken.loses.lost isAllocated attached).2
  rw [isWithin_leaving taken.linked] at outside
  cases outside

theorem exists_swapped (allocated : p.tree.Allocated id) :
    ∃ new, (p.node id).Swapped (p.leaving target) new (after.node id) ∧
      ∀ n, new = some n → ¬p.tree.Allocated n := by
  rcases taken.removed.tree with ⟨edited, -⟩ | ⟨edited, -⟩
  · exact ⟨none, edited.node id, nofun⟩
  · obtain ⟨grows, loose, -⟩ := grows_withEmpty taken.linked
    refine ⟨_, ?_, fun n isNew => Option.some.inj isNew ▸ loose.new⟩
    rw [Program.node, ← grows.node allocated]
    exact edited.node id

end Taken

end Unravel.Program

/-! ### Stores whose links are intact -/

namespace Unravel

namespace Program

variable {p q after : Program} {target replacement placed id : NodeId} {tree : Tree}

/-- A program with intact links comes after another one, at the same root and in a store that is not
smaller and whose nodes are still the same but for their children. -/
structure Follows (p q : Program) : Prop where
  rooted : q.Rooted
  root : q.root = p.root
  size : p.tree.size ≤ q.tree.size
  tag : ∀ {id}, p.tree.Allocated id → (q.tree.node id).tag = (p.tree.node id).tag

namespace Follows

theorem refl (rooted : p.Rooted) : p.Follows p := ⟨rooted, rfl, Nat.le_refl _, fun _ => rfl⟩

theorem allocated (follows : p.Follows q) (isAllocated : p.tree.Allocated id) :
    q.tree.Allocated id :=
  Nat.lt_of_lt_of_le isAllocated follows.size

theorem trans (first : p.Follows q) (second : q.Follows after) : p.Follows after :=
  ⟨second.rooted, second.root.trans first.root, Nat.le_trans first.size second.size,
    fun isAllocated => (second.tag (first.allocated isAllocated)).trans (first.tag isAllocated)⟩

theorem grow {grown : Tree} (rooted : p.Rooted) (grows : p.tree.Grows grown) :
    p.Follows { p with tree := grown } :=
  ⟨rooted.grow grows, rfl, grows.size,
    fun isAllocated => congrArg Node.tag (grows.node isAllocated)⟩

end Follows

theorem Rooted.congr (rooted : p.Rooted) (sameTree : q.tree = p.tree) (sameRoot : q.root = p.root) :
    p.Follows q := by
  obtain ⟨body, shape⟩ := rooted.isProgram
  refine ⟨⟨sameTree ▸ rooted.linked, ?_, body, ?_⟩, sameRoot,
    Nat.le_of_eq (congrArg Tree.size sameTree.symm), fun _ => by rw [sameTree]⟩
  · rw [sameTree, sameRoot]
    exact rooted.isTop
  · rw [Program.node, sameTree, sameRoot]
    exact shape

theorem eq_of_rescope (done : p.rescope = .ok after) :
    after.tree = p.tree ∧ after.root = p.root := by
  rw [rescope] at done
  simp only [bind_eq_ok_iff] at done
  obtain ⟨scopes, -, same⟩ := done
  cases same
  exact ⟨rfl, rfl⟩

theorem eq_of_fixReferences (done : p.fixReferences id = .ok after) :
    after.tree = p.tree ∧ after.root = p.root := by
  rw [fixReferences] at done
  dsimp only at done
  split at done
  · cases done
  · split at done
    · exact eq_of_rescope done
    · cases done
      exact ⟨rfl, rfl⟩

theorem tree_of_remove {parent : NodeId} {index : Nat}
    (place : p.tree.slot? (p.leaving target) = some (parent, .list index))
    (done : p.remove target = .ok after) :
    p.tree.detach? (p.leaving target) = some after.tree := by
  rw [Program.remove, ← leaving] at done
  simp only [ite_throw_eq_ok_iff, place] at done
  obtain ⟨-, done⟩ := done
  split at done
  · cases done
  · rename_i detached
    rw [tree_removeReferences] at detached
    split at done
    · rw [detached, (eq_of_rescope done).1]
    · cases done
      exact detached

namespace Rooted

variable (rooted : p.Rooted)

include rooted

theorem nonempty : p.tree.size ≠ 0 := Nat.ne_of_gt (Nat.zero_lt_of_lt rooted.isTop.allocated)

theorem isAttached_of_isWithin {outer : NodeId} (attached : p.isAttached id = true)
    (within : p.tree.isWithin id outer = true) : p.isAttached outer = true := by
  rw [isAttached_eq rooted.linked rooted.isTop.top] at attached ⊢
  exact rooted.linked.isWithin_root_of_above rooted.isTop attached within

theorem isAttached_parent {parent : NodeId} (attached : p.isAttached id = true)
    (held : p.tree.parent? id = some parent) : p.isAttached parent = true :=
  rooted.isAttached_of_isWithin attached (rooted.linked.isWithin_of_parent held)

theorem allocated_of_isAttached (attached : p.isAttached id = true) : p.tree.Allocated id := by
  rw [isAttached_eq rooted.linked rooted.isTop.top] at attached
  exact rooted.linked.allocated_of_isWithin attached rooted.isTop.allocated

theorem isAttached_of_mem_nodes (member : id ∈ p.nodes) : p.isAttached id = true := by
  rw [isAttached_eq rooted.linked rooted.isTop.top,
    ← rooted.linked.mem_descendants_iff rooted.isTop.allocated]
  exact member

/-- After a replacement what left hangs nowhere, and neither does what else did not. -/
theorem of_replace (allocated : p.tree.Allocated replacement)
    (done : p.replace target replacement = .ok (placed, after)) :
    p.Follows after ∧ after.tree.IsTop target ∧
      ∀ id, p.tree.IsTop id → id ≠ replacement → after.tree.IsTop id := by
  obtain ⟨replaceable, -, attaches⟩ := replace_eq_ok_iff.mp done
  have staging := rooted.staging allocated replaceable
  have part := (isWithin_of_unwrap rooted.linked target replacement).1
  generalize (p.unwrap target replacement).1 = placed at *
  generalize (p.unwrap target replacement).2 = q at *
  have edited := staging.edited
  obtain ⟨afterTree, afterRoot⟩ := eq_of_fixReferences attaches
  have tag (id : NodeId) : (q.tree.node id).tag = (p.tree.node id).tag := by
    rcases staging.unwrapped.tree with same | ⟨inner, taken⟩
    · rw [same]
    · exact taken.tag id
  have follows : p.Follows (p.staged target replacement) :=
    ⟨staging.rooted, staging.root, Nat.le_of_eq (by rw [edited.size, staging.unwrapped.size]),
      fun {id} _ => (edited.tag id).trans (tag id)⟩
  refine ⟨follows.trans (staging.rooted.congr afterTree afterRoot), ?_,
    fun id isTop different => ?_⟩
  · have allocated : q.tree.Allocated target := by
      obtain ⟨parent, held⟩ := staging.possible.held
      exact Tree.allocated_of_parent? held
    rw [afterTree]
    exact ⟨edited.allocated.mpr allocated, edited.parent?_old⟩
  have stillTop : q.tree.parent? id = none := by
    rcases staging.unwrapped.tree with same | ⟨inner, taken⟩
    · rw [same, isTop.top]
    · rw [taken.parent?, isTop.top]
      simp
  have notPlaced : some id ≠ some placed := by
    rintro same
    rw [← Option.some.inj same, Tree.isWithin_of_root isTop.top] at part
    exact different part
  rw [afterTree]
  exact ⟨follows.allocated isTop.allocated,
    by rw [edited.parent?, if_neg notPlaced, stillTop, ite_self]⟩

/-- A removal leaves alone what hangs nowhere. -/
theorem of_remove (done : p.remove target = .ok after) :
    p.Follows after ∧ ∀ id, p.tree.IsTop id → after.tree.IsTop id := by
  have linked := rooted.linked
  have isTop := rooted.isTop
  rw [Program.remove, ← leaving] at done
  simp only [ite_throw_eq_ok_iff] at done
  obtain ⟨attached, done⟩ := done
  rw [Bool.not_eq_true, Bool.not_eq_false', isAttached_eq linked isTop.top] at attached
  have goneAttached := linked.isWithin_root_of_above isTop attached (isWithin_leaving linked target)
  generalize p.leaving target = gone at done goneAttached
  split at done
  · cases done
  · split at done
    · -- An empty statement is made and comes into the place of the statement.
      simp only [bind_eq_ok_iff] at done
      obtain ⟨⟨placed, result⟩, replaced, same⟩ := done
      cases same
      obtain ⟨grows, loose, -⟩ := grows_withEmpty linked
      have grown : p.Follows { p with tree := withEmpty p.tree } := .grow rooted grows
      obtain ⟨follows, -, still⟩ := grown.rooted.of_replace loose.allocated replaced
      refine ⟨grown.trans follows,
        fun id isTop => still id ⟨grown.allocated isTop.allocated, ?_⟩ ?_⟩
      · exact (grows.parent? isTop.allocated).trans isTop.top
      · rintro rfl
        exact loose.new isTop.allocated
    · cases done
  · split at done
    · cases done
    · rename_i tree detached
      rw [tree_removeReferences] at detached
      have edited := Tree.edited_detach linked detached
      have possible := Tree.Exchangeable.of_detach detached
      have exchanged : p.Follows (p.exchanged gone tree) :=
        ⟨rooted.exchanged edited possible goneAttached (by simp), root_exchanged,
          Nat.le_of_eq edited.size.symm, fun {id} _ => edited.tag id⟩
      have same : after.tree = tree ∧ after.root = p.root := by
        split at done
        · obtain ⟨sameTree, sameRoot⟩ := eq_of_rescope done
          exact ⟨sameTree, sameRoot.trans root_exchanged⟩
        · cases done
          exact ⟨rfl, root_exchanged⟩
      refine ⟨exchanged.trans (exchanged.rooted.congr same.1 (same.2.trans root_exchanged.symm)),
        fun id isTop => ?_⟩
      rw [same.1]
      exact ⟨edited.allocated.mpr isTop.allocated, by rw [edited.parent?, isTop.top]; simp⟩

end Rooted

end Program

end Unravel
