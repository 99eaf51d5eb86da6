import Unravel.Proofs.Tree.Linked

/-!
What an edit does to the links of a store. Replacing and taking out a node are both the exchange
of one child for at most one other (`Tree.Edited`), and everything else is derived from that
relation: the links stay intact, the ancestors of what was not moved stay the same, and so does
the source order of what neither left nor came in.
-/

namespace Unravel.Tree

/-- The relation between a store and what the exchange of `old` for `new` makes of it. -/
structure Edited (t after : Tree) (old : NodeId) (new : Option NodeId) : Prop where
  size : after.size = t.size
  node : ∀ id, (t.node id).Swapped old new (after.node id)
  kept : ∀ id, old ∉ (t.node id).children → after.node id = t.node id
  parent? : ∀ id, after.parent? id =
    if id = old then none else if some id = new then t.parent? old else t.parent? id

/-- Whether a node belongs to what an exchange brings in. -/
def isIncoming (t : Tree) (new : Option NodeId) (id : NodeId) : Bool := new.any (t.isWithin id)

variable {t after : Tree} {old id : NodeId} {new : Option NodeId}

theorem isIncoming_iff :
    t.isIncoming new id = true ↔ ∃ n, new = some n ∧ t.isWithin id n = true := by
  cases new <;> simp [isIncoming]

@[simp] theorem isIncoming_none : t.isIncoming none id = false := rfl

@[simp] theorem isIncoming_some {n : NodeId} : t.isIncoming (some n) id = t.isWithin id n := rfl

/-! ### The edits -/

theorem swapped_elsewhere (linked : t.Linked) {parent : NodeId} (held : t.parent? old = some parent)
    (different : id ≠ parent) : (t.node id).Swapped old new (t.node id) := by
  apply Node.Swapped.of_notMem
  intro member
  rw [linked.mem_children, held, Option.some.injEq] at member
  exact different member.symm

theorem edited_replace (linked : t.Linked) {parent n : NodeId} (held : t.parent? old = some parent)
    (detached : t.parent? n = none) (allocated : t.Allocated n) :
    t.Edited (t.replace old n) old (some n) := by
  have member : old ∈ (t.node parent).children := linked.mem_children.mpr held
  have different : old ≠ n := by
    rintro rfl
    rw [detached] at held
    cases held
  obtain ⟨node, found⟩ : ∃ node, (t.node parent).replaceChild? old n = some node := by
    rw [Node.replaceChild?_eq _ _ _ (linked.nodup_children parent), if_pos member]
    exact ⟨_, rfl⟩
  have result : t.replace old n =
      ((t.setNode parent node).setParent n (some parent)).setParent old none := by
    simp only [replace, held, found]
  rw [result]
  refine ⟨by simp, fun id => ?_, fun id notHolding => ?_, fun id => ?_⟩
  · rw [node_setParent, node_setParent, node_setNode _ (linked.allocated_parent held)]
    by_cases same : id = parent
    · subst same
      rw [if_pos rfl]
      exact Node.swapped_of_replaceChild? (linked.nodup_children id) found
    · rw [if_neg same]
      exact swapped_elsewhere linked held same
  · rw [node_setParent, node_setParent, node_setNode _ (linked.allocated_parent held), if_neg]
    rintro rfl
    exact notHolding member
  · have oldAllocated : t.Allocated old := allocated_of_parent? held
    rw [parent?_setParent _ (by simpa [Allocated] using oldAllocated),
      parent?_setParent _ (by simpa [Allocated] using allocated), parent?_setNode, held]
    simp only [Option.some.injEq]

theorem edited_detach (linked : t.Linked) (detached : t.detach? old = some after) :
    t.Edited after old none := by
  simp only [detach?, bind, Option.bind_eq_some_iff] at detached
  obtain ⟨parent, held, node, found, result⟩ := detached
  cases result
  refine ⟨by simp, fun id => ?_, fun id notHolding => ?_, fun id => ?_⟩
  · rw [node_setParent, node_setNode _ (linked.allocated_parent held)]
    by_cases same : id = parent
    · subst same
      rw [if_pos rfl]
      exact Node.swapped_of_detachChild? (linked.nodup_children id) found
    · rw [if_neg same]
      exact swapped_elsewhere linked held same
  · rw [node_setParent, node_setNode _ (linked.allocated_parent held), if_neg]
    rintro rfl
    exact notHolding (linked.mem_children.mpr held)
  · have allocated : t.Allocated old := allocated_of_parent? held
    rw [parent?_setParent _ (by simpa [Allocated] using allocated), parent?_setNode]
    simp

/-! ### The links after an edit -/

/-- What an exchange needs: a node that something holds leaves, and a detached node that does
not contain it comes in. -/
structure Exchangeable (t : Tree) (old : NodeId) (new : Option NodeId) : Prop where
  held : ∃ parent, t.parent? old = some parent
  detached : ∀ n, new = some n → t.parent? n = none
  allocated : ∀ n, new = some n → t.Allocated n
  apart : t.isIncoming new old = false

namespace Exchangeable

theorem ne_old (possible : t.Exchangeable old new) {n : NodeId}
    (isNew : new = some n) : n ≠ old := by
  rintro rfl
  have apart := possible.apart
  simp [isNew] at apart

theorem of_detach (detached : t.detach? old = some after) :
    t.Exchangeable old none := by
  simp only [detach?, bind, Option.bind_eq_some_iff] at detached
  obtain ⟨parent, held, -⟩ := detached
  exact ⟨⟨parent, held⟩, by simp, by simp, rfl⟩

end Exchangeable

theorem isIncoming_parent (linked : t.Linked) (possible : t.Exchangeable old new)
    {parent child : NodeId} (held : t.parent? child = some parent) :
    t.isIncoming new child = t.isIncoming new parent := by
  cases new with
  | none => rfl
  | some n =>
    have different : child ≠ n := by
      rintro rfl
      rw [possible.detached child rfl] at held
      cases held
    exact linked.isWithin_parent held different

namespace Edited

variable (edited : t.Edited after old new)

include edited

theorem tag (id : NodeId) : (after.node id).tag = (t.node id).tag := (edited.node id).tag

theorem allocated : after.Allocated id ↔ t.Allocated id := by
  rw [Allocated, Allocated, edited.size]

theorem parent?_old : after.parent? old = none := by rw [edited.parent?, if_pos rfl]

theorem parent?_new (possible : t.Exchangeable old new) {n : NodeId} (isNew : new = some n) :
    after.parent? n = t.parent? old := by
  rw [edited.parent?, if_neg (possible.ne_old isNew), if_pos isNew.symm]

theorem parent?_of_ne (notOld : id ≠ old) (notNew : new ≠ some id) :
    after.parent? id = t.parent? id := by
  rw [edited.parent?, if_neg notOld, if_neg (Ne.symm notNew)]

theorem linked (before : t.Linked) (possible : t.Exchangeable old new) : after.Linked := by
  obtain ⟨parent, held⟩ := possible.held
  refine ⟨fun {p child} => ?_, fun id => ?_, ⟨fun id => ?_⟩⟩
  · rw [(edited.node p).children, mem_flatMap_swap, before.mem_children, before.mem_children,
      edited.parent?]
    by_cases isOld : child = old
    · subst isOld
      simp only [ne_eq, not_true_eq_false, and_false, if_pos, false_or, reduceCtorEq, iff_false,
        not_and]
      exact fun _ isNew => possible.ne_old isNew.symm rfl
    · rw [if_neg isOld]
      by_cases isNew : some child = new
      · have detached : t.parent? child = none := possible.detached child isNew.symm
        simp [isNew, detached]
      · simp [isNew, isOld]
  · rw [(edited.node id).children]
    apply nodup_flatMap_swap (before.nodup_children id)
    intro n isNew member
    rw [before.mem_children, possible.detached n isNew] at member
    cases member
  · -- Outside of what comes in, the new parents are the old ones.
    have outside : ∀ id, t.isIncoming new id = false →
        Acc (fun parent child => after.parent? child = some parent) id := by
      intro id
      induction id using before.induction with
      | step id induction =>
        intro notIncoming
        refine ⟨id, fun p heldAfter => ?_⟩
        rw [edited.parent?] at heldAfter
        by_cases isOld : id = old
        · simp [isOld] at heldAfter
        · have notNew : some id ≠ new := by
            rintro rfl
            simp at notIncoming
          rw [if_neg isOld, if_neg notNew] at heldAfter
          refine induction p heldAfter ?_
          rwa [← isIncoming_parent before possible heldAfter]
    induction id using before.induction with
    | step id induction =>
      refine ⟨id, fun p heldAfter => ?_⟩
      rw [edited.parent?] at heldAfter
      by_cases isOld : id = old
      · simp [isOld] at heldAfter
      · rw [if_neg isOld] at heldAfter
        split at heldAfter
        · refine outside p ?_
          rw [← isIncoming_parent before possible heldAfter]
          exact possible.apart
        · exact induction p heldAfter

/-! ### Ancestors after an edit -/

theorem ancestors_of_outside (before : t.Linked) (possible : t.Exchangeable old new)
    (staying : t.isWithin id old = false) (notIncoming : t.isIncoming new id = false) :
    after.ancestors id = t.ancestors id := by
  have linked := edited.linked before possible
  induction id using before.induction with
  | step id induction =>
    have notOld : id ≠ old := by
      rintro rfl
      simp at staying
    have notNew : new ≠ some id := by
      rintro rfl
      simp at notIncoming
    have same := edited.parent?_of_ne notOld notNew
    cases held : t.parent? id with
    | none => rw [ancestors_of_root held, ancestors_of_root (same.trans held)]
    | some parent =>
      rw [before.ancestors_of_parent held, linked.ancestors_of_parent (same.trans held)]
      rw [before.isWithin_parent held notOld] at staying
      rw [isIncoming_parent before possible held] at notIncoming
      rw [induction parent held staying notIncoming]

theorem ancestors_of_incoming (before : t.Linked) (possible : t.Exchangeable old new)
    {parent : NodeId} (held : t.parent? old = some parent) (incoming : t.isIncoming new id = true) :
    after.ancestors id = t.ancestors id ++ parent :: t.ancestors parent := by
  have linked := edited.linked before possible
  obtain ⟨n, isNew, within⟩ := isIncoming_iff.mp incoming
  have top : t.parent? n = none := possible.detached n isNew
  have parentStays : t.isWithin parent old = false := by
    rw [Bool.eq_false_iff]
    intro below
    have same := before.isWithin_antisymm below (before.isWithin_of_parent held)
    exact before.parent?_ne_self old (by rwa [same] at held)
  have parentApart : t.isIncoming new parent = false := by
    rw [← isIncoming_parent before possible held]
    exact possible.apart
  clear incoming
  induction id using before.induction with
  | step id induction =>
    by_cases isTop : id = n
    · subst isTop
      rw [linked.ancestors_of_parent ((edited.parent?_new possible isNew).trans held),
        ancestors_of_root top,
        edited.ancestors_of_outside before possible parentStays parentApart, List.nil_append]
    · have notOld : id ≠ old := by
        rintro rfl
        have apart := possible.apart
        rw [isNew, isIncoming_some, within] at apart
        cases apart
      have notNew : new ≠ some id := by
        rw [isNew]
        exact fun same => isTop (Option.some.inj same).symm
      cases heldId : t.parent? id with
      | none => exact absurd ((isWithin_of_root heldId).mp within) isTop
      | some above =>
        rw [before.ancestors_of_parent heldId,
          linked.ancestors_of_parent ((edited.parent?_of_ne notOld notNew).trans heldId)]
        rw [before.isWithin_parent heldId isTop] at within
        rw [induction above heldId within, List.cons_append]

/-- The part that comes in is closed under going down, before and after. -/
theorem isWithin_new (before : t.Linked) (possible : t.Exchangeable old new) {n : NodeId}
    (isNew : new = some n) : after.isWithin id n = t.isWithin id n := by
  have linked := edited.linked before possible
  induction id using before.induction with
  | step id induction =>
    by_cases isTop : id = n
    · subst isTop
      rw [isWithin_self, isWithin_self]
    · by_cases isOld : id = old
      · subst isOld
        have apart := possible.apart
        rw [isNew, isIncoming_some] at apart
        rw [apart, Bool.eq_false_iff, ne_eq, isWithin_of_root edited.parent?_old]
        exact isTop
      · have notNew : new ≠ some id := by
          rw [isNew]
          exact fun same => isTop (Option.some.inj same).symm
        have same := edited.parent?_of_ne isOld notNew
        cases held : t.parent? id with
        | none =>
          rw [Bool.eq_iff_iff, isWithin_of_root held, isWithin_of_root (same.trans held)]
        | some parent =>
          rw [before.isWithin_parent held isTop, linked.isWithin_parent (same.trans held) isTop]
          exact induction parent held

theorem isWithin_old (before : t.Linked) (possible : t.Exchangeable old new)
    (within : t.isWithin id old = true) : after.isWithin id old = true := by
  have linked := edited.linked before possible
  induction id using before.induction with
  | step id induction =>
    by_cases isTop : id = old
    · rw [isTop, isWithin_self]
    · cases held : t.parent? id with
      | none => exact absurd ((isWithin_of_root held).mp within) isTop
      | some parent =>
        have notNew : new ≠ some id := by
          intro isNew
          rw [possible.detached id isNew] at held
          cases held
        have same := edited.parent?_of_ne isTop notNew
        rw [linked.isWithin_parent (same.trans held) isTop]
        rw [before.isWithin_parent held isTop] at within
        exact induction parent held within

omit edited in
theorem isWithin_before {inner outer : NodeId} (edited : t.Edited after old none)
    (before : t.Linked) (possible : t.Exchangeable old none)
    (within : after.isWithin inner outer = true) :
    t.isWithin inner outer = true := by
  have linked := edited.linked before possible
  induction inner using linked.induction with
  | step inner induction =>
    by_cases same : inner = outer
    · rw [same, isWithin_self]
    · cases held : after.parent? inner with
      | none => exact absurd ((isWithin_of_root held).mp within) same
      | some parent =>
        rw [linked.isWithin_parent held same] at within
        have heldBefore := held
        rw [edited.parent?, Option.ite_none_left_eq_some, if_neg (by simp)] at heldBefore
        rw [before.isWithin_parent heldBefore.2 same]
        exact induction parent held within

/-- What hangs below a root afterwards: what did before and did not leave, and what came in. -/
theorem isWithin_root_iff (before : t.Linked) (possible : t.Exchangeable old new) {root : NodeId}
    (top : t.parent? root = none) (attached : t.isWithin old root = true)
    (notNew : new ≠ some root) :
    after.isWithin id root = true ↔
      (t.isWithin id root = true ∧ t.isWithin id old = false) ∨ t.isIncoming new id = true := by
  have linked := edited.linked before possible
  obtain ⟨parent, held⟩ := possible.held
  have notOld : root ≠ old := by
    rintro rfl
    rw [top] at held
    cases held
  have topAfter : after.parent? root = none := by rw [edited.parent?_of_ne notOld notNew, top]
  by_cases incoming : t.isIncoming new id = true
  · have below : t.isWithin parent root = true := by
      rwa [← before.isWithin_parent held (Ne.symm notOld)]
    have reached : after.isWithin id root = true := by
      rw [isWithin_iff, edited.ancestors_of_incoming before possible held incoming]
      rcases isWithin_iff.mp below with rfl | member
      · exact .inr (by simp)
      · exact .inr (by simp [member])
    simp [reached, incoming]
  · rw [Bool.not_eq_true] at incoming
    rw [incoming]
    by_cases leaving : t.isWithin id old = true
    · have stuck : after.isWithin id root = false := by
        rw [Bool.eq_false_iff]
        intro reached
        have below := edited.isWithin_old before possible leaving
        rcases linked.isWithin_linear below reached with within | within
        · rw [isWithin_of_root edited.parent?_old] at within
          exact notOld within.symm
        · rw [isWithin_of_root topAfter] at within
          exact notOld within
      simp [stuck, leaving]
    · rw [Bool.not_eq_true] at leaving
      rw [isWithin_iff, edited.ancestors_of_outside before possible leaving incoming,
        ← isWithin_iff]
      simp [leaving]

/-! ### Source order after an edit -/

theorem filter_descendants (before : t.Linked) (possible : t.Exchangeable old new)
    (allocated : t.Allocated id) (staying : t.isWithin id old = false)
    (notIncoming : t.isIncoming new id = false) :
    (after.descendants id).filter (fun n => !t.isIncoming new n) =
      (t.descendants id).filter fun n => !t.isWithin n old := by
  have linked := edited.linked before possible
  obtain ⟨parentOfOld, oldHeld⟩ := possible.held
  induction id, allocated using before.induction_children with
  | step id allocated induction =>
    rw [linked.descendants_eq (edited.allocated.mpr allocated), before.descendants_eq allocated,
      (edited.node id).children, List.filter_cons, List.filter_cons, notIncoming, staying]
    simp only [Bool.not_false, ↓reduceIte]
    congr 1
    apply filter_flatMap_swap
    · intro child member notOld
      have held := before.mem_children.mp member
      refine induction child held ?_ ?_
      · rw [before.isWithin_parent held notOld]
        exact staying
      · rw [isIncoming_parent before possible held]
        exact notIncoming
    · rw [List.filter_eq_nil_iff]
      intro n below
      rw [before.mem_descendants_iff (allocated_of_parent? oldHeld)] at below
      simp [below]
    · intro n isNew
      rw [List.filter_eq_nil_iff]
      intro inner below
      rw [linked.mem_descendants_iff (edited.allocated.mpr (possible.allocated n isNew)),
        edited.isWithin_new before possible isNew] at below
      simp [isNew, below]

end Edited

end Unravel.Tree
