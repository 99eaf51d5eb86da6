import Unravel.Proofs.Scope.Declaration
import Unravel.Proofs.Tree.Copy

/-!
Stores in which only identifiers and patterns stand where names are declared (`Tree.WellBound`).
Allocating, copying and exchanging nodes keeps them so, as long as nothing comes into such a place
but what was in one before.
-/

namespace Unravel

namespace Node

variable {α : Type}

/-- Whether a node may stand where a name is declared. -/
def isPattern : Node α → Bool
  | identifier _ | assignmentPattern .. | restElement _ | arrayPattern _ => true
  | _ => false

def isDeclarator : Node α → Bool
  | variableDeclarator .. => true
  | _ => false

theorem isPattern_tag (n : Node α) : n.tag.isPattern = n.isPattern := by cases n <;> rfl

theorem isIdentifier_tag (n : Node α) : n.tag.isIdentifier = n.isIdentifier := by cases n <;> rfl

theorem isDeclarator_tag (n : Node α) : n.tag.isDeclarator = n.isDeclarator := by cases n <;> rfl

theorem pattern_eq_nil_of_identifier {n : Node α} (isIdentifier : n.isIdentifier = true) :
    n.part .pattern = [] := by
  cases n <;> simp_all [Node.isIdentifier, identifier?, part]

end Node

namespace Tree

variable {t mid after : Tree} {id child root old : NodeId} {new : Option NodeId}
  {node : Node NodeId} {copyOf : NodeId → NodeId}

/-- Where names are declared, there are identifiers and patterns, and variables are declared by
declarators. -/
structure WellBound (t : Tree) : Prop where
  pattern : ∀ {id}, t.Binds id → (t.node id).isPattern = true
  declarator : ∀ {id child}, child ∈ (t.node id).part .declarators →
    (t.node child).isDeclarator = true

/-- A pattern all the way down to the names that it binds. -/
inductive IsPattern (t : Tree) : NodeId → Prop where
  | mk {id : NodeId} (form : (t.node id).isPattern = true)
      (below : ∀ child ∈ (t.node id).part .pattern, IsPattern t child) : IsPattern t id

namespace IsPattern

theorem form (isPattern : t.IsPattern id) : (t.node id).isPattern = true := by
  cases isPattern with
  | mk form _ => exact form

theorem nested (isPattern : t.IsPattern id) (held : child ∈ (t.node id).part .pattern) :
    t.IsPattern child := by
  cases isPattern with
  | mk _ below => exact below child held

theorem of_identifier (isIdentifier : (t.node id).isIdentifier = true) : t.IsPattern id := by
  refine ⟨?_, ?_⟩
  · cases shape : t.node id <;> simp_all [Node.isIdentifier, Node.identifier?, Node.isPattern]
  · rw [Node.pattern_eq_nil_of_identifier isIdentifier]
    simp

end IsPattern

theorem allocated_of_isPattern (form : (t.node id).isPattern = true) : t.Allocated id := by
  by_contra missing
  rw [node_of_not_allocated missing] at form
  cases form

theorem Linked.exists_parent_of_binds (linked : t.Linked) (binds : t.Binds id) :
    ∃ parent, t.parent? id = some parent := by
  cases binds with
  | place _ held => exact ⟨_, linked.parent?_of_mem_part held⟩
  | nested _ held => exact ⟨_, linked.parent?_of_mem_part held⟩

theorem Linked.not_binds_of_top (linked : t.Linked) (top : t.parent? id = none) : ¬t.Binds id := by
  intro binds
  obtain ⟨parent, held⟩ := linked.exists_parent_of_binds binds
  rw [top] at held
  cases held

/-- A use of a name binds none. -/
theorem Linked.not_binds_of_isUse (linked : t.Linked) (isUse : (t.role id).isUse = true) :
    ¬t.Binds id := by
  intro binds
  rw [linked.isUse_role_of_binds binds] at isUse
  cases isUse

theorem WellBound.isPattern_of_binds (wellBound : t.WellBound) (linked : t.Linked)
    (binds : t.Binds id) : t.IsPattern id := by
  have allocated := allocated_of_isPattern (wellBound.pattern binds)
  induction id, allocated using linked.induction_children with
  | step id allocated induction =>
    exact ⟨wellBound.pattern binds, fun child held =>
      induction child (linked.parent?_of_mem_part held) (.nested binds held)⟩

theorem Linked.binds_of_between {name pattern middle : NodeId} (linked : t.Linked)
    (allocated : t.Allocated pattern) (binds : t.Binds pattern)
    (member : name ∈ t.patternNames pattern) (below : t.isWithin name middle = true)
    (inside : t.isWithin middle pattern = true) : t.Binds middle := by
  induction middle using linked.induction with
  | step middle induction =>
    by_cases same : middle = pattern
    · rwa [same]
    · cases held : t.parent? middle with
      | none => exact absurd ((isWithin_of_root held).mp inside) same
      | some parent =>
        have nested := linked.mem_pattern_of_between allocated member below inside same held
        refine .nested (induction parent held ?_ ?_) nested
        · exact linked.isWithin_trans below (linked.isWithin_of_parent held)
        · rwa [← linked.isWithin_parent held same]

/-! ### A test -/

def isPatternWithin (t : Tree) : Nat → NodeId → Bool
  | 0, _ => false
  | limit + 1, id =>
    (t.node id).isPattern && ((t.node id).part .pattern).all (t.isPatternWithin limit)

theorem isPattern_of_isPatternWithin {limit : Nat} (passes : t.isPatternWithin limit id = true) :
    t.IsPattern id := by
  induction limit generalizing id with
  | zero => cases passes
  | succ limit induction =>
    rw [isPatternWithin, Bool.and_eq_true, List.all_eq_true] at passes
    exact ⟨passes.1, fun child held => induction (passes.2 child held)⟩

def bindsWell (t : Tree) : Bool :=
  (List.range t.size).all fun index =>
    ([.target, .name, .params].all fun part =>
      ((t.node ⟨index⟩).part part).all (t.isPatternWithin t.size)) &&
    ((t.node ⟨index⟩).part .declarators).all fun child => (t.node child).isDeclarator

theorem wellBound_of_bindsWell (passes : t.bindsWell = true) : t.WellBound := by
  have each {id child : NodeId} {part : Part} (held : child ∈ (t.node id).part part) :
      (part ∈ [.target, .name, .params] → t.IsPattern child) ∧
        (part = .declarators → (t.node child).isDeclarator = true) := by
    have allocated := allocated_of_mem_children (Node.mem_children_of_mem_part held)
    have at_ := List.all_eq_true.mp passes id.index (List.mem_range.mpr allocated)
    rw [Bool.and_eq_true, List.all_eq_true, List.all_eq_true] at at_
    refine ⟨fun isPlace => ?_, fun same => at_.2 child (same ▸ held)⟩
    exact isPattern_of_isPatternWithin (List.all_eq_true.mp (at_.1 part isPlace) child held)
  refine ⟨fun {id} binds => IsPattern.form ?_, fun held => (each held).2 rfl⟩
  induction binds with
  | place isPlace held => exact (each held).1 isPlace
  | nested _ held induction => exact induction.nested held

/-! ### Exchanges -/

/-- An exchange makes nothing bind names, unless what leaves did. -/
theorem Edited.binds (edited : t.Edited after old new) (free : new ≠ none → ¬t.Binds old)
    (binds : after.Binds id) : t.Binds id := by
  induction binds with
  | @place parent child part isPlace held =>
    rw [(edited.node parent).part, mem_flatMap_swap] at held
    rcases held with ⟨held, -⟩ | ⟨held, isNew⟩
    · exact .place isPlace held
    · exact absurd (.place isPlace held) (free (by rw [← isNew]; simp))
  | @nested parent child outer held induction =>
    rw [(edited.node parent).part, mem_flatMap_swap] at held
    rcases held with ⟨held, -⟩ | ⟨held, isNew⟩
    · exact .nested induction held
    · exact absurd (.nested induction held) (free (by rw [← isNew]; simp))

theorem Edited.isPattern (edited : t.Edited after old new) (id : NodeId) :
    (after.node id).isPattern = (t.node id).isPattern := by
  rw [← Node.isPattern_tag, edited.tag, Node.isPattern_tag]

theorem Edited.isDeclarator (edited : t.Edited after old new) (id : NodeId) :
    (after.node id).isDeclarator = (t.node id).isDeclarator := by
  rw [← Node.isDeclarator_tag, edited.tag, Node.isDeclarator_tag]

/-- An exchange is harmless if what leaves for another node neither binds names nor declares
variables. -/
theorem Edited.wellBound (edited : t.Edited after old new) (free : new ≠ none → ¬t.Binds old)
    (plain : new ≠ none → (t.node old).isDeclarator = false) (wellBound : t.WellBound) :
    after.WellBound where
  pattern {id} binds := by
    rw [edited.isPattern]
    exact wellBound.pattern (edited.binds free binds)
  declarator {id child} held := by
    rw [(edited.node id).part, mem_flatMap_swap] at held
    rw [edited.isDeclarator]
    rcases held with ⟨held, -⟩ | ⟨held, isNew⟩
    · exact wellBound.declarator held
    · have isDeclarator := wellBound.declarator held
      rw [plain (by rw [← isNew]; simp)] at isDeclarator
      cases isDeclarator

/-! ### Growth -/

namespace Grows

variable (grows : t.Grows after)

include grows

theorem not_allocated_parent (linked : t.Linked) (isNew : ¬t.Allocated child) {parent : NodeId}
    (held : after.parent? child = some parent) : ¬t.Allocated parent := by
  intro allocated
  have member := grows.linked.mem_children.mpr held
  rw [grows.node allocated] at member
  exact isNew (allocated_of_parent? (linked.mem_children.mp member))

theorem binds_iff (linked : t.Linked) (allocated : t.Allocated id) :
    after.Binds id ↔ t.Binds id := by
  constructor
  · intro binds
    induction binds with
    | @place parent child part isPlace held =>
      have above := grows.linked.parent?_of_mem_part held
      rw [grows.parent? allocated] at above
      rw [grows.node (linked.allocated_parent above)] at held
      exact .place isPlace held
    | @nested parent child outer held induction =>
      have above := grows.linked.parent?_of_mem_part held
      rw [grows.parent? allocated] at above
      have parentAllocated := linked.allocated_parent above
      rw [grows.node parentAllocated] at held
      exact .nested (induction parentAllocated) held
  · intro binds
    clear allocated
    induction binds with
    | place isPlace held =>
      rw [← grows.node (linked.allocated_parent (linked.parent?_of_mem_part held))] at held
      exact .place isPlace held
    | nested outer held induction =>
      rw [← grows.node (linked.allocated_parent (linked.parent?_of_mem_part held))] at held
      exact .nested induction held

theorem isPattern (isPattern : t.IsPattern id) : after.IsPattern id := by
  induction isPattern with
  | @mk id form _ induction =>
    have same := grows.node (allocated_of_isPattern form)
    refine ⟨by rwa [same], fun child held => ?_⟩
    rw [same] at held
    exact induction child held

end Grows

theorem Linked.binds_of_alloc (linked : t.Linked) (binding : NodeId → Prop)
    (allocated : ∀ child ∈ node.children, t.Allocated child)
    (places : ∀ part ∈ [.target, .name, .params], ∀ child ∈ node.part part, binding child)
    (nested : ∀ id, binding id → ∀ child ∈ (t.node id).part .pattern, binding child)
    (binds : (Tree.alloc node t).2.Binds id) : t.Allocated id ∧ (t.Binds id ∨ binding id) := by
  have isNext : ¬t.Allocated ⟨t.size⟩ := t.not_allocated_next
  induction binds with
  | @place parent child part isPlace held =>
    rw [node_alloc] at held
    split at held
    · exact ⟨allocated _ (Node.mem_children_of_mem_part held),
        .inr (places part isPlace child held)⟩
    · exact ⟨linked.allocated_of_mem_part held, .inl (.place isPlace held)⟩
  | @nested parent child outer held induction =>
    rw [node_alloc, if_neg (by rintro rfl; exact isNext induction.1)] at held
    exact ⟨linked.allocated_of_mem_part held, induction.2.imp (fun binds => .nested binds held)
      fun isBinding => nested parent isBinding child held⟩

theorem WellBound.alloc (wellBound : t.WellBound) (linked : t.Linked)
    (allocated : ∀ child ∈ node.children, t.Allocated child)
    (places : ∀ part ∈ [.target, .name, .params], ∀ child ∈ node.part part, t.IsPattern child)
    (declarators : ∀ child ∈ node.part .declarators, (t.node child).isDeclarator = true) :
    (alloc node t).2.WellBound := by
  have old {id : NodeId} (isAllocated : t.Allocated id) :
      (Tree.alloc node t).2.node id = t.node id := by
    rw [node_alloc, if_neg]
    rintro rfl
    exact t.not_allocated_next isAllocated
  refine ⟨fun {id} binds => ?_, fun {id child} held => ?_⟩
  · obtain ⟨isAllocated, isBinding⟩ := linked.binds_of_alloc _ allocated places
      (fun _ isPattern _ held => isPattern.nested held) binds
    rw [old isAllocated]
    exact isBinding.elim wellBound.pattern IsPattern.form
  · rw [node_alloc] at held
    split at held
    · rw [old (allocated child (Node.mem_children_of_mem_part held))]
      exact declarators child held
    · rw [old (linked.allocated_of_mem_part held)]
      exact wellBound.declarator held

/-! ### Copies -/

namespace Copied

variable (copied : t.Copied root copyOf after)

include copied

theorem binds (linked : t.Linked) (inside : t.isWithin id root = true)
    (binds : after.Binds (copyOf id)) : t.Binds id := by
  -- What holds a copy is a copy of what holds the original.
  have original {parent id : NodeId} {part : Part} (inside : t.isWithin id root = true)
      (held : copyOf id ∈ (after.node parent).part part) :
      ∃ source, t.isWithin source root = true ∧ parent = copyOf source ∧
        id ∈ (t.node source).part part := by
    have above := copied.grows.linked.parent?_of_mem_part held
    have isNew := copied.grows.not_allocated_parent linked (copied.new id inside).1 above
    obtain ⟨source, within, rfl⟩ :=
      copied.all parent isNew (copied.grows.linked.allocated_parent above)
    refine ⟨source, within, rfl, ?_⟩
    rw [copied.node source within, Node.part_map, List.mem_map] at held
    obtain ⟨child, childHeld, same⟩ := held
    have childInside :=
      linked.isWithin_trans (linked.isWithin_of_parent (linked.parent?_of_mem_part childHeld))
        within
    rwa [← copied.injective child id childInside inside same]
  generalize isCopy : copyOf id = copy at binds
  induction binds generalizing id with
  | @place parent child part isPlace held =>
    subst isCopy
    obtain ⟨source, -, -, sourceHeld⟩ := original inside held
    exact .place isPlace sourceHeld
  | @nested parent child outer held induction =>
    subst isCopy
    obtain ⟨source, within, same, sourceHeld⟩ := original inside held
    exact .nested (induction within same.symm) sourceHeld

theorem isPattern (linked : t.Linked) (inside : t.isWithin id root = true)
    (isPattern : t.IsPattern id) : after.IsPattern (copyOf id) := by
  induction isPattern with
  | @mk id form _ induction =>
    have shape := copied.node id inside
    refine ⟨?_, fun child held => ?_⟩
    · rw [shape, ← Node.isPattern_tag, Node.tag_map, Node.isPattern_tag]
      exact form
    · rw [shape, Node.part_map, List.mem_map] at held
      obtain ⟨source, sourceHeld, rfl⟩ := held
      refine induction source sourceHeld (linked.isWithin_trans ?_ inside)
      exact linked.isWithin_of_parent (linked.parent?_of_mem_part sourceHeld)

theorem wellBound (linked : t.Linked) (wellBound : t.WellBound) : after.WellBound where
  pattern {id} binds := by
    obtain ⟨parent, held⟩ := copied.grows.linked.exists_parent_of_binds binds
    by_cases isOld : t.Allocated id
    · rw [copied.grows.node isOld]
      exact wellBound.pattern ((copied.grows.binds_iff linked isOld).mp binds)
    · obtain ⟨source, inside, rfl⟩ := copied.all id isOld (allocated_of_parent? held)
      rw [copied.node source inside, ← Node.isPattern_tag, Node.tag_map, Node.isPattern_tag]
      exact wellBound.pattern (copied.binds linked inside binds)
  declarator {id child} held := by
    by_cases isOld : t.Allocated id
    · rw [copied.grows.node isOld] at held
      rw [copied.grows.node (linked.allocated_of_mem_part held)]
      exact wellBound.declarator held
    · have allocated := allocated_of_mem_children (Node.mem_children_of_mem_part held)
      obtain ⟨source, inside, rfl⟩ := copied.all id isOld allocated
      rw [copied.node source inside, Node.part_map, List.mem_map] at held
      obtain ⟨original, originalHeld, rfl⟩ := held
      have above := linked.isWithin_of_parent (linked.parent?_of_mem_part originalHeld)
      rw [copied.node original (linked.isWithin_trans above inside), ← Node.isDeclarator_tag,
        Node.tag_map, Node.isDeclarator_tag]
      exact wellBound.declarator originalHeld

end Copied

end Tree

end Unravel
