import Unravel.Proofs.Syntax.Operand
import Unravel.Proofs.Tree.Assembly

/-!
Trees whose nodes stand where they may (`Tree.Sorted`) and whose jumps stay in the functions around
them (`Tree.Calm`). Both are said of a set of nodes that is closed under going down, and both are
kept when nodes are allocated, copied and exchanged, as long as an operand comes in or a statement
for a statement.
-/

namespace Unravel.Tree

variable {t mid after : Tree} {own : NodeId → Prop} {id child outer root old : NodeId}
  {new : Option NodeId} {node : Node NodeId} {copyOf : NodeId → NodeId} {j : Jump}

/-- The nodes of a set hold nodes of the set only, and each where it may stand. -/
structure Sorted (t : Tree) (own : NodeId → Prop) : Prop where
  child : ∀ {id child : NodeId}, own id → child ∈ (t.node id).children →
    own child ∧ (t.node id).admits (t.node child) = true

/-- Whether all children of the nodes of a store are where they may stand. -/
def isSorted (t : Tree) : Bool :=
  (List.range t.size).all
    fun index => (t.node ⟨index⟩).children.all fun child => (t.node ⟨index⟩).admits (t.node child)

/-- A jump at or below a node goes to something beyond it. -/
inductive JumpsOut (t : Tree) (j : Jump) : NodeId → Prop where
  | here {id : NodeId} (isJump : (t.node id).jump? = some j) : JumpsOut t j id
  | deeper {id child : NodeId} (member : child ∈ (t.node id).children)
      (passes : (t.node id).catches j = false) (notFunction : (t.node id).isFunction = false)
      (jumpsOut : JumpsOut t j child) : JumpsOut t j id

/-- No jump goes beyond a function or program of a set. -/
structure Calm (t : Tree) (own : NodeId → Prop) : Prop where
  stays : ∀ {id child : NodeId} {j : Jump}, own id → (t.node id).isBoundary = true →
    child ∈ (t.node id).children → ¬t.JumpsOut j child

namespace Sorted

variable (sorted : t.Sorted own)

include sorted

theorem own_of_isWithin (linked : t.Linked) (isOwn : own outer)
    (within : t.isWithin id outer = true) : own id := by
  induction id using linked.induction with
  | step id induction =>
    by_cases same : id = outer
    · exact same ▸ isOwn
    · obtain ⟨parent, held, parentWithin⟩ := linked.exists_parent_of_isWithin within same
      exact (sorted.child (induction parent held parentWithin) (linked.mem_children.mpr held)).1

theorem isOperand_child (isOwn : own id) (member : child ∈ (t.node id).children)
    (holds : (t.node id).holdsOperands = true) : (t.node child).isOperand = true :=
  Node.isOperand_of_admits (sorted.child isOwn member).2 holds

theorem not_jumpsOut_of_isOperand (isOwn : own id) (isOperand : (t.node id).isOperand = true) :
    ¬t.JumpsOut j id := by
  intro jumpsOut
  induction jumpsOut with
  | here isJump =>
    rw [Node.not_isOperand_of_jump? isJump] at isOperand
    cases isOperand
  | @deeper id child member _ notFunction _ induction =>
    obtain ⟨isOwnChild, admitted⟩ := sorted.child isOwn member
    cases childOperand : (t.node child).isOperand with
    | true => exact induction isOwnChild childOperand
    | false =>
      rw [Node.isFunction_of_admits admitted isOperand childOperand] at notFunction
      cases notFunction

end Sorted

/-! ### New nodes -/

section Growth

variable (linked : t.Linked) (same : ∀ {id}, t.Allocated id → after.node id = t.node id)

include linked same

theorem Linked.jumpsOut_iff (isAllocated : t.Allocated id) :
    after.JumpsOut j id ↔ t.JumpsOut j id := by
  constructor
  · intro jumpsOut
    induction jumpsOut with
    | here isJump => exact .here (same isAllocated ▸ isJump)
    | deeper member passes notFunction _ induction =>
      rw [same isAllocated] at member passes notFunction
      exact .deeper member passes notFunction
        (induction (allocated_of_parent? (linked.mem_children.mp member)))
  · intro jumpsOut
    induction jumpsOut with
    | here isJump => exact .here ((same isAllocated).symm ▸ isJump)
    | deeper member passes notFunction _ induction =>
      have below := induction (allocated_of_parent? (linked.mem_children.mp member))
      rw [← same isAllocated] at member passes notFunction
      exact .deeper member passes notFunction below

theorem Sorted.grow (sorted : t.Sorted own)
    (new : ∀ id, ¬t.Allocated id → after.Allocated id → ∀ child ∈ (after.node id).children,
      own child ∧ (after.node id).admits (after.node child) = true) : after.Sorted own := by
  refine ⟨fun {id child} isOwn member => ?_⟩
  by_cases isAllocated : t.Allocated id
  · rw [same isAllocated] at member ⊢
    rw [same (allocated_of_parent? (linked.mem_children.mp member))]
    exact sorted.child isOwn member
  · exact new id isAllocated (allocated_of_mem_children member) child member

theorem Calm.grow (calm : t.Calm own)
    (new : ∀ id, ¬t.Allocated id → after.Allocated id → (after.node id).isBoundary = true →
      ∀ child ∈ (after.node id).children, ∀ j, ¬after.JumpsOut j child) : after.Calm own := by
  refine ⟨fun {id child j} isOwn isBoundary member => ?_⟩
  by_cases isAllocated : t.Allocated id
  · rw [same isAllocated] at member isBoundary
    rw [linked.jumpsOut_iff same (allocated_of_parent? (linked.mem_children.mp member))]
    exact calm.stays isOwn isBoundary member
  · exact new id isAllocated (allocated_of_mem_children member) isBoundary child member j

end Growth

theorem node_alloc_of_allocated (isAllocated : t.Allocated id) :
    (Tree.alloc node t).2.node id = t.node id := by
  rw [node_alloc, if_neg]
  rintro rfl
  exact t.not_allocated_next isAllocated

section Alloc

variable (linked : t.Linked) (allocated : ∀ child ∈ node.children, t.Allocated child)

include linked allocated

theorem Sorted.alloc (sorted : t.Sorted own)
    (fits : ∀ child ∈ node.children, own child ∧ node.admits (t.node child) = true) :
    (Tree.alloc node t).2.Sorted own := by
  refine sorted.grow linked node_alloc_of_allocated fun id isNew isAllocated child member => ?_
  obtain rfl := (allocated_alloc.mp isAllocated).resolve_left isNew
  rw [node_alloc, if_pos rfl] at member ⊢
  rw [node_alloc_of_allocated (allocated child member)]
  exact fits child member

theorem Calm.alloc (calm : t.Calm own)
    (stay : node.isBoundary = true → ∀ child ∈ node.children, ∀ j, ¬t.JumpsOut j child) :
    (Tree.alloc node t).2.Calm own := by
  refine calm.grow linked node_alloc_of_allocated
    fun id isNew isAllocated isBoundary child member j => ?_
  obtain rfl := (allocated_alloc.mp isAllocated).resolve_left isNew
  rw [node_alloc, if_pos rfl] at member isBoundary
  rw [linked.jumpsOut_iff node_alloc_of_allocated (allocated child member)]
  exact stay isBoundary child member j

end Alloc

/-! ### Copies -/

namespace Copied

variable (copied : t.Copied root copyOf after)

include copied

theorem tag_copy (within : t.isWithin id root = true) :
    (after.node (copyOf id)).tag = (t.node id).tag := by
  rw [copied.node id within, Node.tag_map]

theorem mem_children_copy (linked : t.Linked) (within : t.isWithin id root = true) :
    child ∈ (after.node (copyOf id)).children ↔
      ∃ origin ∈ (t.node id).children, t.isWithin origin root = true ∧ copyOf origin = child := by
  rw [copied.node id within, Node.children_map, List.mem_map]
  refine exists_congr fun origin => and_congr_right fun member => ?_
  have below := linked.isWithin_trans (linked.isWithin_of_parent (linked.mem_children.mp member))
    within
  exact (and_iff_right below).symm

/-- A jump goes beyond a copy if it goes beyond the copied node. -/
theorem jumpsOut (linked : t.Linked) (within : t.isWithin id root = true)
    (jumpsOut : after.JumpsOut j (copyOf id)) : t.JumpsOut j id := by
  generalize isCopy : copyOf id = copy at jumpsOut
  induction jumpsOut generalizing id with
  | here isJump =>
    subst isCopy
    exact .here (Node.jump?_congr (copied.tag_copy within) ▸ isJump)
  | deeper member passes notFunction _ induction =>
    subst isCopy
    obtain ⟨origin, isChild, below, rfl⟩ := (copied.mem_children_copy linked within).mp member
    rw [Node.catches_congr (copied.tag_copy within)] at passes
    rw [Node.isFunction_congr (copied.tag_copy within)] at notFunction
    exact .deeper isChild passes notFunction (induction below rfl)

end Copied

theorem Sorted.copied (sorted : t.Sorted own) (linked : t.Linked)
    (copied : t.Copied root copyOf after) (isOwn : own root)
    (fresh : ∀ id, ¬t.Allocated id → own id) : after.Sorted own := by
  refine sorted.grow linked copied.grows.node fun copy isNew isAllocated child member => ?_
  obtain ⟨id, within, rfl⟩ := copied.all copy isNew isAllocated
  obtain ⟨origin, isChild, below, rfl⟩ := (copied.mem_children_copy linked within).mp member
  refine ⟨fresh _ (copied.new origin below).1, ?_⟩
  rw [Node.admits_congr (copied.tag_copy within) (copied.tag_copy below)]
  exact (sorted.child (sorted.own_of_isWithin linked isOwn within) isChild).2

theorem Calm.copied (calm : t.Calm own) (sorted : t.Sorted own) (linked : t.Linked)
    (copied : t.Copied root copyOf after) (isOwn : own root) : after.Calm own := by
  refine calm.grow linked copied.grows.node
    fun copy isNew isAllocated isBoundary child member j jumpsOut => ?_
  obtain ⟨id, within, rfl⟩ := copied.all copy isNew isAllocated
  obtain ⟨origin, isChild, below, rfl⟩ := (copied.mem_children_copy linked within).mp member
  rw [Node.isBoundary_congr (copied.tag_copy within)] at isBoundary
  exact calm.stays (sorted.own_of_isWithin linked isOwn within) isBoundary isChild
    (copied.jumpsOut linked below jumpsOut)

/-! ### Exchanges -/

/--
What comes in may stand in the place of what leaves: it is an operand, or both are statements. -/
def Suits (t : Tree) (old new : NodeId) : Prop :=
  (t.node new).isOperand = true ∨
  ((t.node old).isStatement = true ∧ (t.node new).isStatement = true)

theorem Suits.admits (suits : t.Suits old id) {parent : Node NodeId}
    (admitted : parent.admits (t.node old) = true) :
    parent.admits (t.node id) = true := by
  rcases suits with isOperand | ⟨isStatement, stillStatement⟩
  · exact Node.admits_of_isOperand parent isOperand
  · exact Node.admits_of_isStatement admitted isStatement stillStatement

namespace Edited

variable (edited : t.Edited after old new)

include edited

theorem mem_children : child ∈ (after.node id).children ↔
    (child ∈ (t.node id).children ∧ child ≠ old) ∨
    (old ∈ (t.node id).children ∧ some child = new) := by
  rw [(edited.node id).children, mem_flatMap_swap]

theorem jumpsOut (stay : ∀ n, new = some n → t.JumpsOut j n → t.JumpsOut j old)
    (jumpsOut : after.JumpsOut j id) : t.JumpsOut j id := by
  induction jumpsOut with
  | @here id isJump => exact .here (Node.jump?_congr (edited.tag id) ▸ isJump)
  | @deeper id child member passes notFunction _ induction =>
    rw [Node.catches_congr (edited.tag id)] at passes
    rw [Node.isFunction_congr (edited.tag id)] at notFunction
    rcases edited.mem_children.mp member with ⟨isChild, -⟩ | ⟨isChild, isNew⟩
    · exact .deeper isChild passes notFunction induction
    · exact .deeper isChild passes notFunction (stay child isNew.symm induction)

end Edited

theorem Sorted.edited (sorted : t.Sorted own) (edited : t.Edited after old new)
    (suits : ∀ n, new = some n → own n ∧ t.Suits old n) : after.Sorted own := by
  refine ⟨fun {id child} isOwn member => ?_⟩
  rw [Node.admits_congr (edited.tag id) (edited.tag child)]
  rcases edited.mem_children.mp member with ⟨isChild, -⟩ | ⟨isChild, isNew⟩
  · exact sorted.child isOwn isChild
  · obtain ⟨isOwnNew, suits⟩ := suits child isNew.symm
    exact ⟨isOwnNew, suits.admits (sorted.child isOwn isChild).2⟩

theorem Calm.edited (calm : t.Calm own) (edited : t.Edited after old new)
    (stay : ∀ n, new = some n → ∀ j, t.JumpsOut j n → t.JumpsOut j old) :
    after.Calm own := by
  refine ⟨fun {id child j} isOwn isBoundary member jumpsOut => ?_⟩
  rw [Node.isBoundary_congr (edited.tag id)] at isBoundary
  have before := edited.jumpsOut (fun n isNew => stay n isNew j) jumpsOut
  rcases edited.mem_children.mp member with ⟨isChild, -⟩ | ⟨isChild, isNew⟩
  · exact calm.stays isOwn isBoundary isChild before
  · exact calm.stays isOwn isBoundary isChild (stay child isNew.symm j before)

end Unravel.Tree
