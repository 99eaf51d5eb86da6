import Unravel.Proofs.Program.Attach
import Unravel.Proofs.Tree.Linked

/-!
Replacing and removing nodes of a program. Both exchange a node for at most one other
(`Program.exchanged`); the table is kept, but for what is declared in what comes in when the table
is not made anew.
-/

namespace Unravel

namespace Tree

variable {t after : Tree} {old root : NodeId}

/-- Taking a node out elsewhere leaves a tree alone. -/
theorem Edited.unchanged (edited : t.Edited after old none) (linked : t.Linked)
    (outside : t.isWithin old root = false) : t.Unchanged after root := by
  refine ⟨fun {id} attached => edited.kept id fun member => ?_,
    fun {id} attached => edited.parent?_of_ne ?_ (by simp)⟩
  · rw [linked.isWithin_trans (linked.isWithin_of_parent (linked.mem_children.mp member))
      attached] at outside
    cases outside
  · rintro rfl
    rw [attached] at outside
    cases outside

theorem Grows.unchanged (grows : t.Grows after) (linked : t.Linked) (isTop : t.IsTop root) :
    t.Unchanged after root where
  node attached := grows.node (linked.allocated_of_isWithin attached isTop.allocated)
  parent? attached := grows.parent? (linked.allocated_of_isWithin attached isTop.allocated)

theorem Linked.spelled_of_mem_declared (linked : t.Linked) (isTop : t.IsTop root) {d : Declaration}
    (member : d ∈ (t.lexicon root).declared) : (t.node d.identifier).identifier? = some d.name := by
  obtain ⟨id, -, declared⟩ := (linked.mem_declared isTop).mp member
  exact (linked.introduces_of_mem declared).spelled

theorem exists_detach?_of_slot? {parent child : NodeId} {slot : Slot}
    (found : t.slot? child = some (parent, slot)) (notRequired : slot ≠ .required) :
    ∃ after, t.detach? child = some after := by
  simp only [slot?, bind, Option.bind_eq_some_iff] at found
  obtain ⟨holder, held, itsSlot, place, same⟩ := found
  cases same
  obtain ⟨node, taken⟩ := Option.isSome_iff_exists.mp (Node.isSome_detachChild? place notRequired)
  exact ⟨_, by simp only [detach?, held, taken, bind, Option.bind_some]; rfl⟩

end Tree

namespace Program

variable {p after : Program} {known : NodeId → Bool} {node target replacement placed old : NodeId}
  {new : Option NodeId} {tree : Tree}

/-- A program whose tree has been changed for what leaves, before what comes in is attached. -/
def exchanged (p : Program) (old : NodeId) (tree : Tree) : Program :=
  { p.removeReferences old with tree }

@[simp] theorem tree_exchanged : (p.exchanged old tree).tree = tree := rfl

@[simp] theorem root_exchanged : (p.exchanged old tree).root = p.root := root_removeReferences p old

section Exchange

variable (edited : p.tree.Edited tree old new) (possible : p.tree.Exchangeable old new)
  (attached : p.tree.isWithin old p.root = true) (notNew : new ≠ some p.root)

include edited possible attached notNew

theorem Rooted.exchanged (rooted : p.Rooted) : (p.exchanged old tree).Rooted := by
  have isTop := edited.top_after rooted.linked possible rooted.isTop attached notNew
  obtain ⟨body, shape⟩ := rooted.isProgram
  have sameTag := edited.tag p.root
  rw [show p.tree.node p.root = .program body from shape] at sameTag
  refine ⟨edited.linked rooted.linked possible, by simpa using isTop, ?_⟩
  rw [Program.node, tree_exchanged, root_exchanged]
  cases afterShape : tree.node p.root <;> simp_all [Node.tag]

theorem Keeps.exchanged (keeps : p.Keeps known) (fresh : (p.exchanged old tree).stale = false) :
    (p.exchanged old tree).scopes.Describes
      (((tree.lexicon p.root).knowing known).restrict fun id => !p.tree.isIncoming new id) := by
  have lacks := keeps.removeReferences attached fresh
  rw [Lacks, tree_removeReferences, root_removeReferences, Lexicon.restrict_knowing,
    ← edited.restrict_lexicon keeps.linked possible keeps.isTop attached notNew,
    ← Lexicon.restrict_knowing] at lacks
  exact lacks

end Exchange

/-- A change of the store that leaves the tree of a program alone. -/
theorem Rooted.elsewhere {q : Program} (rooted : p.Rooted) (root : q.root = p.root)
    (unchanged : p.tree.Unchanged q.tree p.root) (linked : q.tree.Linked)
    (size : p.tree.size ≤ q.tree.size) : q.Rooted := by
  obtain ⟨body, shape⟩ := rooted.isProgram
  have attached : p.tree.isWithin p.root p.root = true := Tree.isWithin_self
  have allocated : q.tree.Allocated p.root := Nat.lt_of_lt_of_le rooted.isTop.allocated size
  have top : q.tree.parent? p.root = none := by rw [unchanged.parent? attached, rooted.isTop.top]
  refine ⟨linked, ?_, ⟨body, ?_⟩⟩
  · rw [root]
    exact ⟨allocated, top⟩
  · rw [Program.node, root, unchanged.node attached]
    exact shape

theorem Rooted.grow {grown : Tree} (rooted : p.Rooted) (grows : p.tree.Grows grown) :
    Program.Rooted { p with tree := grown } :=
  rooted.elsewhere rfl (grows.unchanged rooted.linked rooted.isTop) grows.linked grows.size

/-- A change of the store that leaves the tree of a program alone keeps the table. -/
theorem Keeps.elsewhere {q : Program} (keeps : p.Keeps known) (root : q.root = p.root)
    (scopes : q.scopes = p.scopes) (stale : q.stale = p.stale)
    (unchanged : p.tree.Unchanged q.tree p.root) (linked : q.tree.Linked)
    (size : p.tree.size ≤ q.tree.size) : q.Keeps known := by
  have rooted := keeps.toRooted.elsewhere root unchanged linked size
  have allocated : q.tree.Allocated p.root := root ▸ rooted.isTop.allocated
  refine ⟨rooted, ?_, ?_⟩
  · rw [root, scopes, unchanged.lexicon_eq keeps.linked linked keeps.isTop allocated]
    exact keeps.describes
  · rw [stale, keeps.fresh]

theorem Keeps.congr {known' : NodeId → Bool} (keeps : p.Keeps known)
    (same : ∀ d ∈ (p.tree.lexicon p.root).declared, known d.identifier = known' d.identifier) :
    p.Keeps known' := by
  refine ⟨keeps.toRooted, ?_, keeps.fresh⟩
  have lexicon : (p.tree.lexicon p.root).knowing known =
      (p.tree.lexicon p.root).knowing known' := by
    simp only [Lexicon.knowing, Lexicon.mk.injEq, true_and, and_true]
    exact List.filter_congr same
  rw [← lexicon]
  exact keeps.describes

theorem Keeps.grow {grown : Tree} (keeps : p.Keeps known) (grows : p.tree.Grows grown) :
    Program.Keeps { p with tree := grown } known :=
  keeps.elsewhere rfl rfl rfl (grows.unchanged keeps.linked keeps.isTop) grows.linked grows.size

/-! ### Replacing -/

/-- What unwrapping a detached replacement does: it gives a detached node, and the program itself
stays as it was. -/
structure Unwrapped (p : Program) (placed : NodeId) (q : Program) : Prop where
  root : q.root = p.root
  scopes : q.scopes = p.scopes
  stale : q.stale = p.stale
  unchanged : p.tree.Unchanged q.tree p.root
  linked : q.tree.Linked
  size : q.tree.size = p.tree.size
  detached : q.tree.parent? placed = none
  allocated : q.tree.Allocated placed
  apart : p.tree.isWithin placed p.root = false
  tree : q.tree = p.tree ∨ ∃ inner, p.tree.Edited q.tree inner none

theorem parent?_of_soleStatement? (linked : p.tree.Linked) {inner : NodeId}
    (sole : p.soleStatement? replacement = some inner) :
    p.tree.parent? inner = some replacement := by
  rw [soleStatement?] at sole
  split at sole
  · rename_i other block
    rw [Option.ite_none_left_eq_some, Option.some.injEq] at sole
    obtain ⟨-, rfl⟩ := sole
    refine linked.mem_children.mp ?_
    rw [show p.tree.node replacement = .block [other] from block]
    exact List.mem_singleton_self _
  · cases sole

theorem unwrap_cases (linked : p.tree.Linked) (target replacement : NodeId) :
    p.unwrap target replacement = (replacement, p) ∨
      ∃ inner tree, p.unwrap target replacement = (inner, { p with tree }) ∧
        (p.node target).isStatement = true ∧ p.node replacement = .block [inner] ∧
        p.tree.parent? inner = some replacement ∧ p.tree.Edited tree inner none ∧
        p.tree.Exchangeable inner none := by
  rw [Program.unwrap]
  split
  · exact .inl rfl
  · rename_i inner sole
    rw [Option.ite_none_right_eq_some] at sole
    split
    · rename_i tree taken
      refine .inr ⟨inner, tree, rfl, sole.1, ?_, parent?_of_soleStatement? linked sole.2,
        Tree.edited_detach linked taken, .of_detach taken⟩
      have block := sole.2
      rw [soleStatement?] at block
      split at block
      · rename_i shape
        rw [Option.ite_none_left_eq_some, Option.some.injEq] at block
        rw [← block.2]
        exact shape
      · cases block
    · exact .inl rfl

theorem Rooted.unwrap (rooted : p.Rooted) (target : NodeId)
    (detached : p.tree.parent? replacement = none) (allocated : p.tree.Allocated replacement)
    (different : replacement ≠ p.root) :
    p.Unwrapped (p.unwrap target replacement).1 (p.unwrap target replacement).2 := by
  have linked := rooted.linked
  have apart : p.tree.isWithin replacement p.root = false := by
    rw [Bool.eq_false_iff, ne_eq, Tree.isWithin_of_root detached]
    exact different
  have whole : p.Unwrapped replacement p :=
    ⟨rfl, rfl, rfl, ⟨fun _ => rfl, fun _ => rfl⟩, linked, rfl, detached, allocated, apart, .inl rfl⟩
  rcases unwrap_cases linked target replacement with
    same | ⟨inner, tree, same, -, -, held, edited, possible⟩
  · rw [same]
    exact whole
  · have innerApart : p.tree.isWithin inner p.root = false := by
      rw [linked.isWithin_parent held, apart]
      rintro rfl
      rw [rooted.isTop.top] at held
      cases held
    have after := edited.linked linked possible
    rw [same]
    exact ⟨rfl, rfl, rfl, edited.unchanged linked innerApart, after, edited.size,
      edited.parent?_old, edited.allocated.mpr (Tree.allocated_of_parent? held), innerApart,
      .inr ⟨inner, edited⟩⟩

theorem Unwrapped.keeps {q : Program} (unwrapped : p.Unwrapped placed q) (keeps : p.Keeps known) :
    q.Keeps known :=
  keeps.elsewhere unwrapped.root unwrapped.scopes unwrapped.stale unwrapped.unchanged
    unwrapped.linked (Nat.le_of_eq unwrapped.size.symm)

/-- The program in which a node of the replacement stands in the place of the target, but is not
attached yet. -/
def staged (p : Program) (target replacement : NodeId) : Program :=
  let (placed, q) := p.unwrap target replacement
  q.exchanged target (q.tree.replace target placed)

/-- What a replacement needs: the target is attached and not the root, the replacement is detached
and not the root either. -/
structure Replaceable (p : Program) (target replacement : NodeId) : Prop where
  attached : p.isAttached target = true
  notRoot : target ≠ p.root
  detached : p.tree.parent? replacement = none
  different : replacement ≠ p.root

theorem replace_eq_ok_iff : p.replace target replacement = .ok (placed, after) ↔
    p.Replaceable target replacement ∧ placed = (p.unwrap target replacement).1 ∧
      (p.staged target replacement).fixReferences placed = .ok after := by
  rw [Program.replace]
  simp only [ite_throw_eq_ok_iff, bind_eq_ok_iff, not_or, Bool.not_eq_true, Bool.not_eq_false',
    Option.isSome_eq_false_iff, Option.isNone_iff_eq_none, tree_removeReferences]
  constructor
  · rintro ⟨attached, notRoot, ⟨different, detached⟩, result, attaches, same⟩
    cases same
    exact ⟨⟨attached, notRoot, detached, different⟩, rfl, attaches⟩
  · rintro ⟨possible, rfl, attaches⟩
    exact ⟨possible.attached, possible.notRoot, ⟨possible.different, possible.detached⟩,
      after, attaches, rfl⟩

/-- What a successful replacement does to the tree and to the table. -/
structure Placed (p : Program) (known : NodeId → Bool) (target replacement : NodeId) (q : Program)
    (placed : NodeId) (after : Program) : Prop where
  unwrapped : p.Unwrapped placed q
  root : after.root = p.root
  tree : after.tree = (p.staged target replacement).tree
  edited : q.tree.Edited after.tree target (some placed)
  possible : q.tree.Exchangeable target (some placed)
  attached : q.tree.isWithin target p.root = true
  keeps : after.Keeps fun id =>
    (p.staged target replacement).remakes placed || (known id && !after.tree.isWithin id placed)

structure Staging (p : Program) (target replacement : NodeId) (q : Program)
    (placed : NodeId) : Prop where
  unwrapped : p.Unwrapped placed q
  attached : q.tree.isWithin target p.root = true
  notRoot : some placed ≠ some p.root
  possible : q.tree.Exchangeable target (some placed)
  edited : q.tree.Edited (p.staged target replacement).tree target (some placed)
  root : (p.staged target replacement).root = p.root
  rooted : (p.staged target replacement).Rooted

theorem Rooted.staging (rooted : p.Rooted) (allocated : p.tree.Allocated replacement)
    (replaceable : p.Replaceable target replacement) :
    p.Staging target replacement (p.unwrap target replacement).2
      (p.unwrap target replacement).1 := by
  have isTop := rooted.isTop
  have unwrapped := rooted.unwrap target replaceable.detached allocated replaceable.different
  have isStaged : p.staged target replacement = (p.unwrap target replacement).2.exchanged target
    ((p.unwrap target replacement).2.tree.replace target (p.unwrap target replacement).1) := rfl
  generalize (p.unwrap target replacement).1 = placed at *
  generalize (p.unwrap target replacement).2 = q at *
  have rootedInner := rooted.elsewhere unwrapped.root unwrapped.unchanged unwrapped.linked
    (Nat.le_of_eq unwrapped.size.symm)
  have attached := replaceable.attached
  rw [isAttached_eq rooted.linked isTop.top] at attached
  have alike := unwrapped.unchanged.alike rooted.linked isTop.top
  have attachedAfter : q.tree.isWithin target p.root = true := by
    rw [alike.isWithin rooted.linked unwrapped.linked attached, attached]
  have notPlaced : some placed ≠ some p.root := by
    intro same
    have apart := unwrapped.apart
    rw [Option.some.inj same, Tree.isWithin_self] at apart
    cases apart
  obtain ⟨parent, held, -⟩ := unwrapped.linked.exists_parent_of_isWithin attachedAfter
    replaceable.notRoot
  have outside : q.tree.isWithin target placed = false := by
    rw [Bool.eq_false_iff]
    intro below
    have above := unwrapped.linked.isWithin_root_of_above
      (unwrapped.root ▸ rootedInner.isTop) attachedAfter below
    rw [Tree.isWithin_of_root unwrapped.detached] at above
    exact notPlaced (congrArg some above)
  have possible : q.tree.Exchangeable target (some placed) :=
    ⟨⟨parent, held⟩, fun n same => Option.some.inj same ▸ unwrapped.detached,
      fun n same => Option.some.inj same ▸ unwrapped.allocated, outside⟩
  have edited := Tree.edited_replace unwrapped.linked held unwrapped.detached unwrapped.allocated
  have stagedRooted := rootedInner.exchanged edited possible (by rw [unwrapped.root, attachedAfter])
    (by rw [unwrapped.root]; exact notPlaced)
  exact ⟨unwrapped, attachedAfter, notPlaced, possible, isStaged ▸ edited,
    isStaged ▸ root_exchanged.trans unwrapped.root, isStaged ▸ stagedRooted⟩

theorem Staging.isWithin_placed {q : Program} (staging : p.Staging target replacement q placed)
    (rooted : q.Rooted) : (p.staged target replacement).tree.isWithin placed p.root = true := by
  have top := rooted.isTop.top
  rw [staging.unwrapped.root] at top
  rw [staging.edited.isWithin_root_iff staging.unwrapped.linked staging.possible top
    staging.attached staging.notRoot]
  exact .inr (by simp)

theorem Rooted.exists_rescope_stale (rooted : p.Rooted) :
    ∃ after, (if p.stale then p.rescope else .ok p) = .ok after := by
  split
  · obtain ⟨after, made, -⟩ := rooted.rescope
    exact ⟨after, made⟩
  · exact ⟨_, rfl⟩

/-- Attached parts can be attached again, whatever the table says. -/
theorem Rooted.exists_fixReferences (rooted : p.Rooted)
    (attached : p.tree.isWithin node p.root = true) :
    ∃ after, p.fixReferences node = .ok after := by
  rw [Program.fixReferences, isAttached_eq rooted.linked rooted.isTop.top, attached]
  simp only [Bool.not_true, Bool.false_eq_true, if_false]
  split
  · obtain ⟨after, made, -⟩ := rooted.rescope
    exact ⟨after, made⟩
  · exact ⟨_, rfl⟩

/-- A replacement that is possible succeeds, whatever the table says. -/
theorem Rooted.exists_replace (rooted : p.Rooted) (allocated : p.tree.Allocated replacement)
    (replaceable : p.Replaceable target replacement) :
    ∃ after, p.replace target replacement = .ok ((p.unwrap target replacement).1, after) := by
  have staging := rooted.staging allocated replaceable
  have unwrapped := staging.unwrapped
  have between := rooted.elsewhere unwrapped.root unwrapped.unchanged unwrapped.linked
    (Nat.le_of_eq unwrapped.size.symm)
  have placed := staging.isWithin_placed between
  rw [← staging.root] at placed
  obtain ⟨after, made⟩ := staging.rooted.exists_fixReferences placed
  exact ⟨after, replace_eq_ok_iff.mpr ⟨replaceable, rfl, made⟩⟩

/-- A replacement that is possible succeeds and keeps the table. -/
theorem Keeps.replace (keeps : p.Keeps known) (allocated : p.tree.Allocated replacement)
    (replaceable : p.Replaceable target replacement) :
    ∃ after, p.replace target replacement = .ok ((p.unwrap target replacement).1, after) ∧
      p.Placed known target replacement (p.unwrap target replacement).2
        (p.unwrap target replacement).1 after := by
  have staging := keeps.toRooted.staging allocated replaceable
  have isStaged : p.staged target replacement = (p.unwrap target replacement).2.exchanged target
    ((p.unwrap target replacement).2.tree.replace target (p.unwrap target replacement).1) := rfl
  simp only [replace_eq_ok_iff, and_iff_right replaceable, true_and]
  generalize (p.unwrap target replacement).1 = placed at *
  generalize (p.unwrap target replacement).2 = q at *
  have unwrapped := staging.unwrapped
  have unwrappedKeeps := unwrapped.keeps keeps
  have possible := staging.possible
  have edited : q.tree.Edited (q.tree.replace target placed) target (some placed) := by
    have edited := staging.edited
    rwa [isStaged] at edited
  have rooted : (q.exchanged target (q.tree.replace target placed)).Rooted :=
    isStaged ▸ staging.rooted
  have attachedInner : q.tree.isWithin target q.root = true := by
    rw [unwrapped.root, staging.attached]
  have notPlacedInner : some placed ≠ some q.root := by rw [unwrapped.root]; exact staging.notRoot
  have placedAttached : (q.tree.replace target placed).isWithin placed q.root = true := by
    have within := staging.isWithin_placed unwrappedKeeps.toRooted
    rwa [isStaged, tree_exchanged, ← unwrapped.root] at within
  obtain ⟨after, made, tree, root, kept⟩ := rooted.fixReferences known placed
    (by simpa using placedAttached) fun fresh => by
      have describes := unwrappedKeeps.exchanged edited possible attachedInner notPlacedInner fresh
      simp only [Tree.isIncoming_some, ← edited.isWithin_new unwrapped.linked possible rfl]
        at describes
      simpa [Lacks] using describes
  rw [tree_exchanged] at tree kept
  rw [root_exchanged, unwrapped.root] at root
  refine ⟨after, isStaged ▸ made, unwrapped, root, isStaged ▸ tree, tree ▸ edited, possible,
    staging.attached, ?_⟩
  rw [tree, isStaged]
  exact kept

/-- What holds after a replacement that succeeded. -/
theorem Keeps.of_replace (keeps : p.Keeps known) (allocated : p.tree.Allocated replacement)
    (done : p.replace target replacement = .ok (placed, after)) :
    placed = (p.unwrap target replacement).1 ∧
      p.Placed known target replacement (p.unwrap target replacement).2 placed after := by
  obtain ⟨replaceable, rfl, -⟩ := replace_eq_ok_iff.mp done
  obtain ⟨_, made, result⟩ := keeps.replace allocated replaceable
  rw [done] at made
  cases made
  exact ⟨rfl, result⟩

/-! ### Removing -/

/--
What is removed for a node: the node itself, or the declaration that it is the only declarator of.
-/
def leaving (p : Program) (target : NodeId) :
    NodeId := p.removalTarget target (p.tree.ancestors target)

/-- The store in which an empty statement has been made. -/
def withEmpty (t : Tree) : Tree := (Tree.alloc .empty t).2

/-- The empty statement that comes next in a store. -/
def nextEmpty (t : Tree) : NodeId := (Tree.alloc .empty t).1

/-- What a successful removal does: a node leaves, or an empty statement comes into the place of
a statement, and the table is kept. -/
structure Removed (p : Program) (known : NodeId → Bool) (gone : NodeId)
    (after : Program) : Prop where
  root : after.root = p.root
  tree : (p.tree.Edited after.tree gone none ∧ p.tree.Exchangeable gone none) ∨
    ((withEmpty p.tree).Edited after.tree gone (some (nextEmpty p.tree)) ∧
      (withEmpty p.tree).Exchangeable gone (some (nextEmpty p.tree)) ∧
      ((withEmpty p.tree).node gone).isStatement = true)
  keeps : ∃ remade : Bool, after.Keeps fun id => remade || known id

theorem isWithin_leaving (linked : p.tree.Linked) (target : NodeId) :
    p.tree.isWithin target (p.leaving target) = true := by
  rw [leaving]
  induction target using linked.induction with
  | step target induction =>
    cases held : p.tree.parent? target with
    | none =>
      rw [Tree.ancestors_of_root held, removalTarget]
      exact Tree.isWithin_self
    | some parent =>
      rw [linked.ancestors_of_parent held, removalTarget]
      split
      · exact linked.isWithin_trans (linked.isWithin_of_parent held) (induction parent held)
      · exact Tree.isWithin_self

theorem Keeps.detach (keeps : p.Keeps known) (attached : p.tree.isWithin target p.root = true)
    (detached : p.tree.detach? target = some tree) :
    (p.exchanged target tree).Rooted ∧
      ((p.exchanged target tree).stale = false → (p.exchanged target tree).Keeps known) := by
  have edited := Tree.edited_detach keeps.linked detached
  have possible := Tree.Exchangeable.of_detach detached
  have rooted := keeps.toRooted.exchanged edited possible attached (by simp)
  refine ⟨rooted, fun fresh => ⟨rooted, ?_, fresh⟩⟩
  have describes := keeps.exchanged edited possible attached (by simp) fresh
  simpa [Lexicon.restrict] using describes

theorem grows_withEmpty (linked : p.tree.Linked) :
    p.tree.Grows (withEmpty p.tree) ∧ p.tree.Loose (withEmpty p.tree) (nextEmpty p.tree) ∧
      (withEmpty p.tree).node (nextEmpty p.tree) = .empty := by
  refine ⟨(Tree.Grows.refl linked).alloc .empty (by simp [Node.children]) List.nodup_nil,
    (Tree.Grows.refl linked).loose_alloc .empty (by simp [Node.children]), ?_⟩
  rw [withEmpty, Tree.node_alloc]
  exact if_pos rfl

theorem Rooted.replaceable_nextEmpty (rooted : p.Rooted)
    (attached : p.tree.isWithin target p.root = true)
    (held : (p.tree.parent? target).isSome = true) :
    (withEmpty p.tree).Allocated (nextEmpty p.tree) ∧
      Replaceable { p with tree := withEmpty p.tree } target (nextEmpty p.tree) := by
  have linked := rooted.linked
  have isTop := rooted.isTop
  obtain ⟨grows, loose, -⟩ := grows_withEmpty linked
  have top := grows.isTop isTop.allocated isTop.top
  refine ⟨loose.allocated, ?_, ?_, loose.detached, fun same => loose.new (same ▸ isTop.allocated)⟩
  · have alike := (grows.unchanged linked isTop).alike linked isTop.top
    rw [isAttached_eq grows.linked top.2, alike.isWithin linked grows.linked attached, attached]
  · rintro rfl
    rw [isTop.top] at held
    cases held

theorem exists_slot? (linked : p.tree.Linked) (held : (p.tree.parent? target).isSome = true) :
    ∃ parent slot, p.tree.slot? target = some (parent, slot) := by
  obtain ⟨parent, held⟩ := Option.isSome_iff_exists.mp held
  obtain ⟨slot, place⟩ := Option.isSome_iff_exists.mp
    (Node.isSome_slotOf_of_mem (linked.mem_children.mpr held))
  refine ⟨parent, slot, ?_⟩
  rw [Tree.slot?, held, Option.bind_eq_bind, Option.bind_some, Option.bind_eq_bind, place,
    Option.bind_some]
  rfl

theorem Keeps.blank (keeps : p.Keeps known) (isStatement : (p.node target).isStatement = true)
    (attached : p.tree.isWithin target p.root = true)
    (done : Program.replace { p with tree := withEmpty p.tree } target (nextEmpty p.tree) =
      .ok (placed, after)) : p.Removed known target after := by
  have linked := keeps.linked
  obtain ⟨grows, loose, isEmpty⟩ := grows_withEmpty linked
  generalize isGrown : withEmpty p.tree = grown at *
  generalize isNext : nextEmpty p.tree = empty at *
  obtain ⟨isPlaced, result⟩ := (keeps.grow grows).of_replace loose.allocated done
  have noBlock : (if (Program.node { p with tree := grown } target).isStatement then
      Program.soleStatement? { p with tree := grown } empty else none) = none := by
    simp [soleStatement?, Program.node, isEmpty]
  rw [unwrap, noBlock] at isPlaced result
  subst isPlaced
  have placedLinked := result.keeps.linked
  have emptyAfter : (after.tree.node placed).tag = .empty := by
    rw [result.edited.tag]
    simp [isEmpty, Node.tag]
  have nothing : (after.tree.node placed).children = [] := by
    cases shape : after.tree.node placed <;> simp_all [Node.tag, Node.children]
  have allocated : after.tree.Allocated placed := result.edited.allocated.mpr loose.allocated
  have kept := result.keeps
  generalize Program.remakes _ placed = remade at kept
  refine ⟨result.root, .inr ⟨?_, ?_, ?_⟩, ⟨remade, kept.congr fun d member => ?_⟩⟩
  · rw [isGrown, isNext]
    exact result.edited
  · rw [isGrown, isNext]
    exact result.possible
  · rw [isGrown, grows.node (linked.allocated_of_isWithin attached keeps.isTop.allocated)]
    exact isStatement
  · have spelled := placedLinked.spelled_of_mem_declared result.keeps.isTop member
    have outside : after.tree.isWithin d.identifier placed = false := by
      rw [Bool.eq_false_iff]
      intro within
      rw [← placedLinked.mem_descendants_iff allocated, placedLinked.descendants_eq allocated,
        nothing] at within
      simp only [List.flatMap_nil, List.mem_singleton] at within
      rw [within, ← Node.identifier?_tag, emptyAfter] at spelled
      cases spelled
    rw [outside, Bool.not_false, Bool.and_true]

theorem Keeps.remove (keeps : p.Keeps known) (done : p.remove target = .ok after) :
    p.tree.isWithin target p.root = true ∧ p.Removed known (p.leaving target) after := by
  have linked := keeps.linked
  have isTop := keeps.isTop
  rw [Program.remove, ← leaving] at done
  simp only [ite_throw_eq_ok_iff] at done
  obtain ⟨attached, done⟩ := done
  rw [Bool.not_eq_true, Bool.not_eq_false', isAttached_eq linked isTop.top] at attached
  have below := isWithin_leaving linked target
  generalize p.leaving target = gone at below done
  have goneAttached := linked.isWithin_root_of_above isTop attached below
  refine ⟨attached, ?_⟩
  split at done
  · cases done
  · split at done
    · rename_i isStatement
      simp only [bind_eq_ok_iff] at done
      obtain ⟨⟨placed, result⟩, replaced, same⟩ := done
      cases same
      exact keeps.blank isStatement goneAttached replaced
    · cases done
  · split at done
    · cases done
    · rename_i detached
      rw [tree_removeReferences] at detached
      have edited := Tree.edited_detach linked detached
      have possible := Tree.Exchangeable.of_detach detached
      obtain ⟨rooted, kept⟩ := keeps.detach goneAttached detached
      split at done
      · obtain ⟨r, made, tree, root, sound⟩ := rooted.rescope
        have same : r = after := Except.ok.inj (made.symm.trans done)
        subst same
        refine ⟨by rw [root, root_exchanged], .inl ⟨?_, possible⟩,
          ⟨true, sound.congr fun _ _ => by rw [Bool.true_or]⟩⟩
        rw [tree]
        exact edited
      · rename_i fresh
        rw [Bool.not_eq_true] at fresh
        cases done
        exact ⟨root_removeReferences p gone, .inl ⟨edited, possible⟩,
          ⟨false, (kept fresh).congr fun _ _ => by rw [Bool.false_or]⟩⟩

section Cases

variable {parent : NodeId} {slot : Slot} (attached : p.isAttached target = true)

theorem remove_of_detached (detached : p.isAttached target = false) :
    p.remove target = .error (.detached target) := by
  rw [Program.remove, if_pos (by rw [detached, Bool.not_false])]
  rfl

include attached

theorem remove_of_top (top : p.tree.slot? (p.leaving target) = none) :
    p.remove target = .error .rootRemoved := by
  rw [Program.remove, if_neg (by rw [attached, Bool.not_true]; exact Bool.false_ne_true), ← leaving]
  simp only [top]
  rfl

theorem remove_of_required (required : p.tree.slot? (p.leaving target) = some (parent, .required))
    (notStatement : (p.node (p.leaving target)).isStatement = false) : p.remove target =
      .error (.requiredPart (p.node (p.leaving target)).kindName (p.node parent).kindName) := by
  rw [Program.remove, if_neg (by rw [attached, Bool.not_true]; exact Bool.false_ne_true), ← leaving]
  simp only [required, notStatement, Bool.false_eq_true, if_false]
  rfl

theorem remove_of_statement (required : p.tree.slot? (p.leaving target) = some (parent, .required))
    (isStatement : (p.node (p.leaving target)).isStatement = true)
    (done : Program.replace { p with tree := withEmpty p.tree } (p.leaving target)
      (nextEmpty p.tree) = .ok (placed, after)) : p.remove target = .ok after := by
  rw [Program.remove, if_neg (by rw [attached, Bool.not_true]; exact Bool.false_ne_true), ← leaving]
  simp only [required, isStatement, if_true]
  change (Program.replace { p with tree := withEmpty p.tree } (p.leaving target)
    (nextEmpty p.tree)).bind (fun result => .ok result.2) = .ok after
  rw [done]
  rfl

theorem remove_of_optional (found : p.tree.slot? (p.leaving target) = some (parent, slot))
    (optional : slot ≠ .required) (detached : p.tree.detach? (p.leaving target) = some tree)
    (done : (if (p.exchanged (p.leaving target) tree).stale then
      (p.exchanged (p.leaving target) tree).rescope
      else .ok (p.exchanged (p.leaving target) tree)) = .ok after) :
      p.remove target = .ok after := by
  rw [Program.remove, if_neg (by rw [attached, Bool.not_true]; exact Bool.false_ne_true), ← leaving]
  cases slot with
  | required => exact absurd rfl optional
  | optional | list =>
    simp only [found, tree_removeReferences, detached]
    exact done

end Cases

theorem Rooted.exists_remove (rooted : p.Rooted) (attached : p.tree.isWithin target p.root = true)
    (held : (p.tree.parent? (p.leaving target)).isSome = true)
    (optional : ∀ parent, p.tree.slot? (p.leaving target) = some (parent, .required) →
      (p.node (p.leaving target)).isStatement = true) : ∃ after, p.remove target = .ok after := by
  have linked := rooted.linked
  have isAttached :
      p.isAttached target = true := by rw [isAttached_eq linked rooted.isTop.top, attached]
  have goneAttached := linked.isWithin_root_of_above rooted.isTop attached
    (isWithin_leaving linked target)
  obtain ⟨parent, slot, found⟩ := exists_slot? linked held
  by_cases required : slot = .required
  · subst required
    obtain ⟨allocated, possible⟩ := rooted.replaceable_nextEmpty goneAttached held
    obtain ⟨after, done⟩ := (rooted.grow (grows_withEmpty linked).1).exists_replace
      allocated possible
    exact ⟨after, remove_of_statement isAttached found (optional parent found) done⟩
  · obtain ⟨tree, detached⟩ := Tree.exists_detach?_of_slot? found required
    have detachedRooted := rooted.exchanged (Tree.edited_detach linked detached)
      (.of_detach detached) goneAttached (by simp)
    obtain ⟨after, done⟩ := detachedRooted.exists_rescope_stale
    exact ⟨after, remove_of_optional isAttached found required detached done⟩

end Program

end Unravel
