import Unravel.Proofs.Tree.Order

/-!
The order of the source as the order of a document. Nodes below one root either hold one another or
are in order (`Tree.Linked.count_places`). In front of a node stands exactly what a walk of the
document comes to earlier and what does not hold the node (`Tree.Linked.precedes_iff_sublist`), and
what two nodes hold is in the order of these (`Tree.Linked.precedes_within`). Nodes below different
roots are in no order (`Tree.Linked.not_precedes_of_roots`).
-/

namespace Unravel.Tree

variable {t : Tree} {a b root : NodeId}

namespace Linked

variable (linked : t.Linked)

include linked

theorem exists_root (id : NodeId) :
    ∃ root rest, t.path id = root :: rest ∧ t.parent? root = none := by
  induction id using linked.induction with
  | step id induction =>
    cases held : t.parent? id with
    | none => exact ⟨id, [], by rw [path, ancestors_of_root held]; rfl, held⟩
    | some parent =>
      obtain ⟨root, rest, isPath, top⟩ := induction parent held
      exact ⟨root, rest ++ [id], by rw [linked.path_of_parent held, isPath]; rfl, top⟩

theorem exists_root_of_precedes (before : t.precedes a b = true) :
    ∃ root, t.parent? root = none ∧ t.isWithin a root = true ∧ t.isWithin b root = true := by
  obtain ⟨root, rest, isPath, top⟩ := linked.exists_root a
  obtain ⟨other, restToo, isPathToo, -⟩ := linked.exists_root b
  rw [linked.precedes_eq, isPath, isPathToo, pathBefore, Bool.and_eq_true, decide_eq_true_eq]
    at before
  obtain ⟨rfl, -⟩ := before
  refine ⟨root, top, mem_path.mp ?_, mem_path.mp ?_⟩
  · rw [isPath]
    exact List.mem_cons_self ..
  · rw [isPathToo]
    exact List.mem_cons_self ..

/-- A node that two nodes lie in is part of the tree: it is not both of them. -/
theorem allocated_of_isWithin_of_ne (first : t.isWithin a root = true)
    (second : t.isWithin b root = true) (different : a ≠ b) : t.Allocated root := by
  rcases isWithin_iff.mp first with rfl | above
  · rcases isWithin_iff.mp second with same | above
    · exact absurd same.symm different
    · exact linked.allocated_of_mem_ancestors above
  · exact linked.allocated_of_mem_ancestors above

theorem allocated_of_precedes (first : t.isWithin a root = true) (second : t.isWithin b root = true)
    (before : t.precedes a b = true) : t.Allocated root := by
  refine linked.allocated_of_isWithin_of_ne first second ?_
  rintro rfl
  rw [not_precedes_self] at before
  cases before

theorem precedes_within (before : t.precedes a b = true) {inner innerToo : NodeId}
    (within : t.isWithin inner a = true) (withinToo : t.isWithin innerToo b = true) :
    t.precedes inner innerToo = true := by
  obtain ⟨root, -, first, second⟩ := linked.exists_root_of_precedes before
  have allocated := linked.allocated_of_precedes first second before
  exact linked.precedes_of_isWithin (linked.isWithin_precedes allocated first second before within)
    withinToo

/-- Of two nodes exactly one of four things is true: the first lies in the second, the second lies
in the first and is not the first itself, the first comes before the second, or the second before
the first. -/
theorem count_places (first : t.isWithin a root = true) (second : t.isWithin b root = true) :
    [t.isWithin a b, t.isWithin b a && decide (b ≠ a), t.precedes a b, t.precedes b a].count true =
      1 := by
  by_cases same : b = a
  · subst same
    simp [not_precedes_self]
  · cases before : t.precedes a b with
    | true =>
      obtain ⟨notBelow, notAround⟩ := not_isWithin_of_precedes before
      simp [notBelow, notAround, linked.not_precedes_of_precedes before]
    | false =>
      cases behind : t.precedes b a with
      | true =>
        obtain ⟨notBelow, notAround⟩ := not_isWithin_of_precedes behind
        simp [notBelow, notAround]
      | false =>
        cases within : t.isWithin a b with
        | true =>
          have notAround : t.isWithin b a = false :=
            Bool.eq_false_iff.mpr fun around => same (linked.isWithin_antisymm around within)
          simp [notAround]
        | false =>
          have allocated := linked.allocated_of_isWithin_of_ne first second (Ne.symm same)
          have around := linked.precedes_total allocated first second
          simp only [before, behind, within, Bool.false_eq_true, false_or] at around
          simp [around, same]

theorem precedes_iff_sublist (first : t.isWithin a root = true)
    (second : t.isWithin b root = true) :
    t.precedes a b = true ↔ t.isWithin b a = false ∧ [a, b].Sublist (t.descendants root) := by
  constructor
  · intro before
    have allocated := linked.allocated_of_precedes first second before
    exact ⟨(not_isWithin_of_precedes before).1, linked.sublist_of_precedes allocated first
      second before⟩
  · rintro ⟨notBelow, inFront⟩
    have allocated : t.Allocated root := by
      refine linked.allocated_of_isWithin_of_ne first second ?_
      rintro rfl
      rw [isWithin_self] at notBelow
      cases notBelow
    exact (linked.precedes_or_isWithin allocated inFront).resolve_right (by simp [notBelow])

theorem not_precedes_of_roots {other : NodeId} (top : t.parent? root = none)
    (topToo : t.parent? other = none) (different : root ≠ other) (first : t.isWithin a root = true)
    (second : t.isWithin b other = true) :
    t.precedes a b = false := by
  rw [Bool.eq_false_iff]
  intro before
  obtain ⟨common, commonTop, below, belowToo⟩ := linked.exists_root_of_precedes before
  have same {inner root : NodeId} (top : t.parent? root = none)
      (within : t.isWithin inner root = true) (below : t.isWithin inner common = true) :
      root = common := by
    rcases linked.isWithin_linear within below with above | above
    · exact (isWithin_of_root top).mp above
    · exact ((isWithin_of_root commonTop).mp above).symm
  exact different ((same top first below).trans (same topToo second belowToo).symm)

/-- Nodes of one document hold one another or are in the order in which a walk comes to them. The
order is strict and extends to what the nodes hold; nodes of different documents are in no order. -/
theorem document_order :
    (∀ {root a b : NodeId}, t.isWithin a root = true → t.isWithin b root = true →
      [t.isWithin a b, t.isWithin b a && decide (b ≠ a), t.precedes a b, t.precedes b a].count
        true = 1 ∧
      (t.precedes a b = true ↔ t.isWithin b a = false ∧ [a, b].Sublist (t.descendants root))) ∧
    (∀ a, t.precedes a a = false) ∧
    (∀ {a b c : NodeId}, t.precedes a b = true → t.precedes b c = true → t.precedes a c = true) ∧
    (∀ {a b inner innerToo : NodeId}, t.precedes a b = true → t.isWithin inner a = true →
      t.isWithin innerToo b = true → t.precedes inner innerToo = true) ∧
    ∀ {root other a b : NodeId}, t.parent? root = none → t.parent? other = none → root ≠ other →
      t.isWithin a root = true → t.isWithin b other = true → t.precedes a b = false := by
  refine ⟨fun first second => ⟨linked.count_places first second,
    linked.precedes_iff_sublist first second⟩, t.not_precedes_self, linked.precedes_trans, ?_, ?_⟩
  · intro a b inner innerToo before within withinToo
    exact linked.precedes_within before within withinToo
  · intro root other a b top topToo different first second
    exact linked.not_precedes_of_roots top topToo different first second

omit linked

/-- The statements `a;` and `b;` of a program come one after the other, and so do their names. A
name that is part of no program stands in no order with them. -/
theorem exists_document_order :
    ∃ t : Tree, t.Linked ∧ t.precedes ⟨1⟩ ⟨3⟩ = true ∧ t.precedes ⟨0⟩ ⟨2⟩ = true ∧
      [⟨0⟩, ⟨2⟩].Sublist (t.descendants ⟨4⟩) ∧ t.precedes ⟨0⟩ ⟨5⟩ = false := by
  let t : Tree := ⟨#[⟨.identifier "a", some ⟨1⟩⟩, ⟨.expressionStatement ⟨0⟩, some ⟨4⟩⟩,
    ⟨.identifier "b", some ⟨3⟩⟩, ⟨.expressionStatement ⟨2⟩, some ⟨4⟩⟩, ⟨.program [⟨1⟩, ⟨3⟩], none⟩,
    ⟨.identifier "c", none⟩]⟩
  have linked : t.Linked := linked_of_checks (by decide)
  obtain ⟨places, -, -, within, apart⟩ := linked.document_order
  have statements : t.precedes ⟨1⟩ ⟨3⟩ = true := by decide
  have names : t.precedes ⟨0⟩ ⟨2⟩ = true := within statements (by decide) (by decide)
  exact ⟨t, linked, statements, names, ((places (by decide) (by decide)).2.mp names).2,
    @apart ⟨4⟩ ⟨5⟩ ⟨0⟩ ⟨5⟩ (by decide) (by decide) (by decide) (by decide) (by decide)⟩

end Linked

end Unravel.Tree
