import Mathlib.Data.List.Forall2
import Mathlib.Data.Set.Function
import Unravel.Proofs.Tree.Copy
import Unravel.Proofs.Tree.Edit
import Unravel.Syntax.Term

/-!
The closed terms below the nodes of a store. A term agrees with itself, so two nodes with the same
term agree.

What a caller gets who has a part of a tree copied: a walk of the copy comes to the copies in the
order of the originals (`Tree.Linked.descendants_relocated`), and the table of copies has an entry
for each original and no other entries (`Tree.mem_foldlM_copyNode`).

Main statement: the copy is exact and shares nothing with what was there (`Tree.Linked.duplicates`).
-/

namespace Unravel

theorem Literal.agrees_self (l : Literal) : l.agrees l = true := by
  cases l <;> simp [Literal.agrees]

theorem Node.agreesAtHead_self {α : Type} (node : Node α) : node.agreesAtHead node = true := by
  cases node <;> simp [Node.agreesAtHead, Literal.agrees_self]

theorem Term.agrees_mk {n m : Node Term} : (mk n).agrees (mk m) = true ↔
    n.agreesAtHead m = true ∧ List.Forall₂ (fun c d => c.agrees d = true) n.children
      m.children := by
  have pairs :
      n.children.zip m.children =
        (n.children.attach.zip m.children).map (Prod.map Subtype.val id) := by
    rw [← List.zip_map_left, List.attach_map_subtype_val]
  rw [agrees, Bool.and_eq_true, Bool.and_eq_true, decide_eq_true_eq, List.all_eq_true, and_assoc,
    List.forall₂_iff_zip]
  apply and_congr_right
  intro head
  apply and_congr_right
  intro sameLength
  constructor
  · intro agree c d pair
    obtain ⟨held, member, same⟩ := List.mem_map.mp (pairs ▸ pair)
    cases same
    exact agree held member
  · intro agree held member
    exact agree (pairs ▸ List.mem_map_of_mem member)

theorem Term.agrees_self (t : Term) : t.agrees t = true := by
  cases t with
  | mk node =>
    have children : ∀ c ∈ node.children, c.agrees c = true := fun c member => agrees_self c
    exact agrees_mk.mpr ⟨node.agreesAtHead_self, List.forall₂_same.mpr children⟩
termination_by sizeOf t
decreasing_by exact sizeOf_lt_of_mem_children member

namespace Tree

variable {t after : Tree} {a b id root old placed : NodeId} {copies : Copies}
  {now copyOf : NodeId → NodeId}

theorem Linked.term_eq (linked : t.Linked) (allocated : t.Allocated id) :
    t.term id = .mk ((t.node id).map t.term) :=
  linked.walk_eq t.termWithin (fun id below => .mk ((t.node id).map below)) (fun _ _ => rfl)
    (fun _ _ _ same => by rw [Node.map_congr_of_children same]) allocated

theorem Linked.term_of_copy (linked : t.Linked) (afterLinked : after.Linked)
    (copyOf : NodeId → NodeId) (allocated : t.Allocated root)
    (copied : ∀ id, t.isWithin id root = true →
      after.Allocated (copyOf id) ∧ after.node (copyOf id) = (t.node id).map copyOf) :
    after.term (copyOf root) = t.term root := by
  suffices below : ∀ id, t.isWithin id root = true → after.term (copyOf id) = t.term id from
    below root isWithin_self
  intro id within
  induction id, linked.allocated_of_isWithin within allocated using linked.induction_children with
  | step id isAllocated induction =>
    obtain ⟨copyAllocated, node⟩ := copied id within
    rw [linked.term_eq isAllocated, afterLinked.term_eq copyAllocated, node, Node.map_map]
    refine congrArg Term.mk (Node.map_congr_of_children fun child member => ?_)
    have held := linked.mem_children.mp member
    exact induction child held (linked.isWithin_trans (linked.isWithin_of_parent held) within)

theorem Linked.term_congr (linked : t.Linked) (afterLinked : after.Linked)
    (allocated : t.Allocated root)
    (same : ∀ {id}, t.isWithin id root = true → after.Allocated id ∧ after.node id = t.node id) :
    after.term root = t.term root :=
  linked.term_of_copy afterLinked (fun id => id) allocated fun id within => by
    obtain ⟨isAllocated, node⟩ := same within
    rw [Node.map_self]
    exact ⟨isAllocated, node⟩

theorem Copied.term_eq (copied : t.Copied root copyOf after) (linked : t.Linked)
    (allocated : t.Allocated root) :
    after.term (copyOf root) = t.term root :=
  linked.term_of_copy copied.grows.linked copyOf allocated fun id within =>
    ⟨(copied.new id within).2, copied.node id within⟩

theorem Grows.term_eq (grows : t.Grows after) (linked : t.Linked) (allocated : t.Allocated root) :
    after.term root = t.term root :=
  linked.term_congr grows.linked allocated fun within =>
    have isAllocated := linked.allocated_of_isWithin within allocated
    ⟨grows.allocated isAllocated, grows.node isAllocated⟩

theorem Edited.term_eq (edited : t.Edited after old (some placed)) (linked : t.Linked)
    (possible : t.Exchangeable old (some placed)) : after.term placed = t.term placed := by
  have isPlaced := possible.allocated placed rfl
  refine linked.term_congr (edited.linked linked possible) isPlaced fun {id} within =>
    ⟨edited.allocated.mpr (linked.allocated_of_isWithin within isPlaced),
      edited.kept id fun member => ?_⟩
  -- What leaves is no part of what comes in.
  have apart := possible.apart
  have isInside := linked.isWithin_trans (linked.isWithin_of_parent (linked.mem_children.mp member))
    within
  rw [isIncoming_some, isInside] at apart
  cases apart

theorem agrees_of_term_eq (same : t.term a = t.term b) : t.agrees a b = true := by
  rw [agrees, same]
  exact Term.agrees_self _

/-! ### Copies -/

theorem Linked.descendants_relocated (linked : t.Linked) (afterLinked : after.Linked)
    (allocated : t.Allocated root)
    (present : ∀ {id}, t.isWithin id root = true → after.Allocated (now id))
    (children : ∀ {id}, t.isWithin id root = true →
      (after.node (now id)).children = (t.node id).children.map now) :
    after.descendants (now root) = (t.descendants root).map now := by
  induction root, allocated using linked.induction_children with
  | step root allocated induction =>
    have below {child : NodeId} (member : child ∈ (t.node root).children) :
        after.descendants (now child) = (t.descendants child).map now := by
      have held := linked.mem_children.mp member
      have within {id : NodeId} (inside : t.isWithin id child = true) : t.isWithin id root = true :=
        linked.isWithin_trans inside (linked.isWithin_of_parent held)
      exact induction child held (fun inside => present (within inside))
        fun inside => children (within inside)
    rw [afterLinked.descendants_eq (present isWithin_self), linked.descendants_eq allocated,
      children isWithin_self, List.map_cons, List.map_flatMap, List.flatMap_map]
    congr 1
    exact List.flatMap_congr fun child member => below member

theorem mem_foldlM_copyNode (nodes : List NodeId) (copies : Copies) (t : Tree) :
    id ∈ (nodes.foldlM copyNode copies t).1 ↔ id ∈ copies ∨ id ∈ nodes := by
  induction nodes generalizing copies t with
  | nil => exact (or_iff_left List.not_mem_nil).symm
  | cons head rest induction =>
    have known : id ∈ (copyNode copies head t).1 ↔ id ∈ copies ∨ id = head := by
      have inserted :
          (copyNode copies head t).1 =
            copies.insert head (alloc ((t.node head).map copies.of) t).1 := rfl
      rw [inserted, Std.HashMap.mem_insert, beq_iff_eq, or_comm, @eq_comm _ head]
    change id ∈ (rest.foldlM copyNode (copyNode copies head t).1 (copyNode copies head t).2).1 ↔ _
    rw [induction, known, List.mem_cons, or_assoc]

/-- The nodes below the copy are the copies. -/
theorem Copied.descendants (copied : t.Copied root copyOf after) (linked : t.Linked)
    (allocated : t.Allocated root) :
    after.descendants (copyOf root) = (t.descendants root).map copyOf := by
  apply linked.descendants_relocated copied.grows.linked allocated
  · intro id inside
    exact (copied.new id inside).2
  · intro id inside
    rw [copied.node id inside, Node.children_map]

/-- Below the copy are exactly the nodes that were not there before. -/
theorem Copied.mem_descendants_iff (copied : t.Copied root copyOf after) (linked : t.Linked)
    (allocated : t.Allocated root) :
    id ∈ after.descendants (copyOf root) ↔ after.Allocated id ∧ ¬t.Allocated id := by
  have below {other : NodeId} : other ∈ t.descendants root ↔ t.isWithin other root = true :=
    linked.mem_descendants_iff allocated
  rw [copied.descendants linked allocated, List.mem_map]
  constructor
  · intro ⟨source, member, isCopy⟩
    have place := copied.new source (below.mp member)
    exact isCopy ▸ ⟨place.2, place.1⟩
  · intro ⟨isAllocated, isNew⟩
    obtain ⟨source, inside, isCopy⟩ := copied.all id isNew isAllocated
    exact ⟨source, below.mpr inside, isCopy.symm⟩

theorem Copied.bijOn (copied : t.Copied root copyOf after) (linked : t.Linked)
    (allocated : t.Allocated root) :
    Set.BijOn copyOf {id | id ∈ t.descendants root}
      {id | id ∈ after.descendants (copyOf root)} := by
  have below {other : NodeId} : other ∈ t.descendants root ↔ t.isWithin other root = true :=
    linked.mem_descendants_iff allocated
  have image := copied.descendants linked allocated
  refine ⟨?_, ?_, ?_⟩
  · intro id member
    exact image ▸ List.mem_map_of_mem member
  · intro a aMember b bMember same
    exact copied.injective a b (below.mp aMember) (below.mp bMember) same
  · intro copy member
    exact List.mem_map.mp (image ▸ member)

theorem copyMapped_getElem? (t : Tree) (root id other : NodeId) :
    (copyMapped root t).1.2[id]? = some other ↔
      id ∈ t.descendants root ∧ other = (copyMapped root t).1.2.of id := by
  have keys : id ∈ (copyMapped root t).1.2 ↔ id ∈ t.descendants root := by
    apply (mem_foldlM_copyNode (t.descendants root).reverse ∅ t).trans
    rw [List.mem_reverse]
    exact or_iff_right Std.HashMap.not_mem_empty
  rw [← keys, Copies.of, Std.HashMap.getD_eq_getD_getElem?, Std.HashMap.mem_iff_isSome_getElem?]
  cases (copyMapped root t).1.2[id]? <;> simp [eq_comm]

/-- A part of a tree is copied field by field into nodes that are all new, one for each of its nodes
and in their order. The copy hangs nowhere, nothing else is made, and what was there stays as it
was. -/
theorem Linked.duplicates (linked : t.Linked) (allocated : t.Allocated root) :
    ∃ copy copies after, copyMapped root t = ((copy, copies), after) ∧
      Tree.copy root t = (copy, after) ∧
      after.Linked ∧ after.parent? copy = none ∧ after.term copy = t.term root ∧
      (∀ id, id ∈ after.descendants copy ↔ after.Allocated id ∧ ¬t.Allocated id) ∧
      (∃ copyOf,
        (∀ id other : NodeId, copies[id]? = some other ↔
          id ∈ t.descendants root ∧ other = copyOf id) ∧
        Set.BijOn copyOf {id | id ∈ t.descendants root} {id | id ∈ after.descendants copy} ∧
        copyOf root = copy ∧
        after.descendants copy = (t.descendants root).map copyOf ∧
        ∀ id ∈ t.descendants root, after.node (copyOf id) = (t.node id).map copyOf ∧
          (after.node (copyOf id)).children = (t.node id).children.map copyOf) ∧
      ∀ id, t.Allocated id → after.node id = t.node id ∧ after.parent? id = t.parent? id := by
  have nonempty : t.size ≠ 0 := Nat.ne_zero_of_lt allocated
  obtain ⟨copied, isCopy⟩ := linked.copied nonempty root
  have entries := copyMapped_getElem? t root
  refine ⟨(copyMapped root t).1.1, (copyMapped root t).1.2, (copyMapped root t).2, rfl, rfl, ?_⟩
  rw [isCopy]
  refine ⟨copied.grows.linked, copied.loose.detached, copied.term_eq linked allocated,
    fun id => copied.mem_descendants_iff linked allocated,
    ⟨_, entries, copied.bijOn linked allocated, rfl, copied.descendants linked allocated, ?_⟩, ?_⟩
  · intro id member
    have shape := copied.node id ((linked.mem_descendants_iff allocated).mp member)
    exact ⟨shape, shape ▸ Node.children_map ..⟩
  · intro id isAllocated
    exact ⟨copied.grows.node isAllocated, copied.grows.parent? isAllocated⟩

/-- In the program `f("A", b);` whose string is spelled with an escape, the copy of the call has its
four nodes, the spelling included, and the call still stands in its statement. -/
theorem exists_duplicates : ∃ t : Tree, t.Linked ∧ t.Allocated ⟨3⟩ ∧
    t.node ⟨1⟩ = .literal (.string "A" (some "\"\\x41\"")) ∧
    ∃ copy copies after, copyMapped ⟨3⟩ t = ((copy, copies), after) ∧ after.parent? copy = none ∧
      after.term copy = t.term ⟨3⟩ ∧ (after.descendants copy).length = 4 ∧
        after.parent? ⟨3⟩ = some ⟨4⟩ ∧
        ∃ copyOf : NodeId → NodeId,
          copyOf ⟨3⟩ = copy ∧ after.node copy = .call (copyOf ⟨0⟩) [copyOf ⟨1⟩, copyOf ⟨2⟩] ∧
            after.node (copyOf ⟨1⟩) = .literal (.string "A" (some "\"\\x41\"")) := by
  let t : Tree :=
    ⟨#[⟨.identifier "f", some ⟨3⟩⟩, ⟨.literal (.string "A" (some "\"\\x41\"")), some ⟨3⟩⟩,
      ⟨.identifier "b", some ⟨3⟩⟩, ⟨.call ⟨0⟩ [⟨1⟩, ⟨2⟩], some ⟨4⟩⟩,
      ⟨.expressionStatement ⟨3⟩, some ⟨5⟩⟩, ⟨.program [⟨4⟩], none⟩]⟩
  have linked : t.Linked := linked_of_checks (by decide)
  have allocated : t.Allocated ⟨3⟩ := by decide
  obtain ⟨copy, copies, after, isCopy, -, -, detached, term, -,
    ⟨copyOf, -, -, isRoot, order, nodes⟩, stays⟩ :=
      linked.duplicates allocated
  have below : t.descendants ⟨3⟩ = [⟨3⟩, ⟨0⟩, ⟨1⟩, ⟨2⟩] := by decide
  have call := (nodes ⟨3⟩ (by rw [below]; decide)).1
  have string := (nodes ⟨1⟩ (by rw [below]; decide)).1
  refine ⟨t, linked, allocated, rfl, copy, copies, after, isCopy, detached, term, ?_, ?_, copyOf,
    isRoot, ?_, string⟩
  · rw [order, below]
    rfl
  · exact (stays ⟨3⟩ allocated).2
  · rw [← isRoot]
    exact call

end Tree

end Unravel
