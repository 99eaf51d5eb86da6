import Unravel.Proofs.Eval.Step
import Unravel.Proofs.Program.Meaning
import Unravel.Proofs.Scope.Sealed

/-!
What is declared in an expression that has a value. A variable that is declared there belongs to a
function in it or is declared on a condition only (`Program.Steady.confines_of_evaluateWithin`), so
that no name elsewhere has its initializer as a value
(`Program.Steady.not_isWithin_of_constantInit?`).
-/

namespace Unravel

namespace Tree

variable {t : Tree} {id owner : NodeId}

theorem Linked.mem_takeWhile_ancestors (linked : t.Linked) {middle : NodeId}
    (above : middle ∈ t.ancestors id) (outside : t.isWithin owner middle = false) :
    middle ∈ (t.ancestors id).takeWhile (· ≠ owner) := by
  induction id using linked.induction with
  | step id induction =>
    cases held : t.parent? id with
    | none => simp [ancestors_of_root held] at above
    | some parent =>
      rw [linked.ancestors_of_parent held] at above ⊢
      have different : parent ≠ owner := by
        rintro rfl
        rw [List.mem_cons, eq_comm, ← isWithin_iff] at above
        rw [above] at outside
        cases outside
      rw [List.takeWhile_cons, if_pos (by simpa using different)]
      rcases List.mem_cons.mp above with rfl | above
      · exact List.mem_cons_self ..
      · exact List.mem_cons_of_mem _ (induction parent held above)

end Tree

namespace Program

variable {p : Program} {eval : NodeId → Option Value} {id : NodeId} {v : Value} {limit : Nat}

/--
No variable that is declared below a node belongs to a scope outside and is sure to be initialized.
-/
def Confines (p : Program) (id : NodeId) : Prop :=
  ∀ d ∈ p.lexicon.declared, d.kind.isVariable = true → p.tree.isWithin d.declaration id = true →
    p.tree.isWithin d.owner id = true ∨
      ∃ middle ∈ p.tree.ancestors d.declaration,
        p.tree.isWithin middle id = true ∧ Scopes.isConditional (p.node middle) = true

/-- The declaration of a binding with an initializer whose value is certain. -/
structure Certain (p : Program) (d : Declaration) (init : NodeId) : Prop where
  shape : p.node d.declaration = .variableDeclarator d.identifier (some init)
  isVariable : d.kind.isVariable = true
  unconditional :
    ∀ middle ∈ p.tree.ancestors d.declaration, Scopes.isConditional (p.node middle) = true →
    p.tree.isWithin d.owner middle = true

namespace Steady

variable (steady : p.Steady)

include steady

theorem exists_declaring {d : Declaration} (member : d ∈ p.lexicon.declared)
    (isVariable : d.kind.isVariable = true) : ∃ holder, d ∈ p.tree.declarationsAt holder ∧
      p.tree.parent? d.declaration = some holder ∧ (p.node d.declaration).isDeclarator = true := by
  obtain ⟨holder, -, declares⟩ := (steady.linked.mem_declared steady.isTop).mp member
  have held := (Tree.exists_declarator declares isVariable).1
  exact ⟨holder, declares, steady.linked.parent?_of_mem_part held, steady.wellBound.declarator held⟩

theorem confines_of_children (plain : (p.node id).isDeclarator = false)
    (each : ∀ child ∈ (p.node id).children, p.Confines child) : p.Confines id := by
  intro d member isVariable within
  obtain ⟨-, -, -, isDeclarator⟩ := steady.exists_declaring member isVariable
  have different : d.declaration ≠ id := by
    rintro rfl
    rw [plain] at isDeclarator
    cases isDeclarator
  obtain ⟨child, held, below⟩ := steady.linked.exists_child within different
  have above := steady.linked.isWithin_of_parent (steady.linked.mem_children.mp held)
  rcases each child held d member isVariable below with
    inside | ⟨middle, around, inside, conditional⟩
  · exact .inl (steady.linked.isWithin_trans inside above)
  · exact .inr ⟨middle, around, steady.linked.isWithin_trans inside above, conditional⟩

theorem confines_of_conditional (conditional : Scopes.isConditional (p.node id) = true) :
    p.Confines id := by
  intro d member isVariable within
  obtain ⟨-, -, -, isDeclarator⟩ := steady.exists_declaring member isVariable
  rcases Tree.isWithin_iff.mp within with same | around
  · rw [same] at isDeclarator
    cases shape : p.node id <;> simp_all [Node.isDeclarator, Scopes.isConditional]
  · exact .inr ⟨id, around, Tree.isWithin_self, conditional⟩

theorem confines_of_function (isFunction : (p.node id).isFunction = true) : p.Confines id := by
  intro d member isVariable within
  obtain ⟨holder, declares, held, isDeclarator⟩ := steady.exists_declaring member isVariable
  have different : d.declaration ≠ id := by
    rintro rfl
    cases shape : p.node d.declaration <;> simp_all [Node.isDeclarator, Node.isFunction,
      Node.function?]
  rw [steady.linked.isWithin_parent held different] at within
  exact .inl (steady.linked.isWithin_owner_of_function declares isVariable within isFunction)

theorem confines_of_leaf (leaf : (p.node id).children = [])
    (plain : (p.node id).isDeclarator = false) :
    p.Confines id :=
  steady.confines_of_children plain (by simp [leaf])

theorem confines_of_identifier? {name : String} (spelled : (p.node id).identifier? = some name) :
    p.Confines id := by
  apply steady.confines_of_leaf <;>
    cases shape : p.node id <;> simp_all [Node.identifier?, Node.children, Node.isDeclarator]

section Step

variable (each : ∀ part v, eval part = some v → p.Confines part)

include each

theorem confines_of_evaluateMember {text? : Value → Option String} {key : NodeId} {computed : Bool}
    {name : String} (made : p.evaluateMember text? eval key computed = some name) :
    p.Confines key := by
  unfold evaluateMember at made
  split at made
  · obtain ⟨v, isKey, -⟩ := Option.bind_eq_some_iff.mp made
    exact each key v isKey
  · exact steady.confines_of_identifier? made

theorem confines_of_evaluateKey {key : NodeId} {computed : Bool} {name : String}
    (made : p.evaluateKey eval key computed = some name) : p.Confines key := by
  unfold evaluateKey at made
  split at made
  · rename_i shape
    exact steady.confines_of_identifier? (by rw [shape]; rfl)
  · rename_i shape
    exact steady.confines_of_leaf (by rw [shape]; rfl) (by rw [shape]; rfl)
  · obtain ⟨v, isKey, -⟩ := Option.bind_eq_some_iff.mp made
    exact each key v isKey
  · cases made

theorem confines_of_foldlM {properties : List NodeId} {known entries : List (String × Value)}
    (made : properties.foldlM (p.evaluateEntry eval) known = some entries) :
    ∀ property ∈ properties, p.Confines property := by
  induction properties generalizing known with
  | nil => simp
  | cons property rest induction =>
    rw [List.foldlM_cons] at made
    obtain ⟨next, isNext, made⟩ := Option.bind_eq_some_iff.mp made
    rw [List.forall_mem_cons]
    refine ⟨?_, induction made⟩
    unfold evaluateEntry at isNext
    split at isNext
    · rename_i key value computed shape
      obtain ⟨name, isKey, isNext⟩ := Option.bind_eq_some_iff.mp isNext
      obtain ⟨v, isValue, -⟩ := Option.bind_eq_some_iff.mp isNext
      apply steady.confines_of_children <;> rw [shape]
      · rfl
      · simp only [Node.children, List.forall_mem_cons]
        exact ⟨steady.confines_of_evaluateKey each isKey, each value v isValue, by simp⟩
    · cases isNext

omit steady in
theorem confines_of_mapM {parts : List NodeId} {values : List Value}
    (made : parts.mapM eval = some values) :
    ∀ part ∈ parts, p.Confines part := by
  intro part member
  obtain ⟨v, isPart⟩ := exists_of_mapM made part member
  exact each part v isPart

theorem confines_of_evaluateStep (made : p.evaluateStep eval id = some v) : p.Confines id := by
  have ofBase {α : Type} {base : NodeId} {f : Value → Option α} {a : α}
      (made : (eval base).bind f = some a) : p.Confines base := by
    obtain ⟨x, isBase, -⟩ := Option.bind_eq_some_iff.mp made
    exact each base x isBase
  unfold evaluateStep at made
  split at made <;> rename_i shape
  · exact steady.confines_of_leaf (by rw [shape]; rfl) (by rw [shape]; rfl)
  · exact steady.confines_of_leaf (by rw [shape]; rfl) (by rw [shape]; rfl)
  case h_7 | h_8 => exact steady.confines_of_conditional (by rw [shape]; rfl)
  case h_12 => cases made
  all_goals
    apply steady.confines_of_children <;> rw [shape]
    · rfl
    simp only [Node.children, List.forall_mem_cons, List.not_mem_nil, false_implies,
      implies_true, and_true]
  case h_3 =>
    obtain ⟨items, found, -⟩ := Option.bind_eq_some_iff.mp made
    exact confines_of_mapM each found
  case h_4 =>
    obtain ⟨entries, found, -⟩ := Option.bind_eq_some_iff.mp made
    exact steady.confines_of_foldlM each found
  case h_5 =>
    split at made
    · rename_i isFunction
      rw [Bool.and_eq_true] at isFunction
      exact steady.confines_of_function isFunction.2
    · exact ofBase made
  case h_6 =>
    obtain ⟨x, isLeft, made⟩ := Option.bind_eq_some_iff.mp made
    exact ⟨each _ x isLeft, ofBase made⟩
  case h_9 =>
    obtain ⟨items, found, -⟩ := Option.bind_eq_some_iff.mp made
    exact confines_of_mapM each found
  case h_10 =>
    obtain ⟨key, isKey, made⟩ := Option.bind_eq_some_iff.mp made
    refine ⟨?_, steady.confines_of_evaluateMember each isKey⟩
    cases isGlobal : p.globalBase? id _ with
    | some name => exact steady.confines_of_identifier? (Option.filter_eq_some_iff.mp isGlobal).1
    | none =>
      rw [isGlobal] at made
      exact ofBase made
  case h_11 =>
    obtain ⟨args, found, made⟩ := Option.bind_eq_some_iff.mp made
    refine ⟨?_, confines_of_mapM each found⟩
    split at made <;> rename_i callee
    · exact steady.confines_of_identifier? (by rw [callee]; rfl)
    · obtain ⟨key, isKey, made⟩ := Option.bind_eq_some_iff.mp made
      apply steady.confines_of_children <;> rw [callee]
      · rfl
      simp only [Node.children, List.forall_mem_cons, List.not_mem_nil, false_implies,
        implies_true, and_true]
      refine ⟨?_, steady.confines_of_evaluateMember each isKey⟩
      cases isGlobal : p.globalBase? id _ with
      | some name => exact steady.confines_of_identifier? (Option.filter_eq_some_iff.mp isGlobal).1
      | none =>
        rw [isGlobal] at made
        exact ofBase made
    · cases made

end Step

theorem confines_of_evaluateWithin (made : p.evaluateWithin limit id = some v) : p.Confines id := by
  induction limit generalizing id v with
  | zero => cases made
  | succ limit induction =>
    rw [evaluateWithin_succ] at made
    exact steady.confines_of_evaluateStep (fun part value found => induction found) made

theorem certain_of_constantInit? {use init : NodeId} {binding : BindingId} {d : Declaration}
    (stands : p.scopes.Stands binding d) (found : p.constantInit? use binding = some init) :
    p.Certain d init := by
  simp only [constantInit?, Program.binding, Option.ite_none_right_eq_some, Bool.and_eq_true,
    stands.declaration, stands.identifier, stands.kind] at found
  obtain ⟨⟨⟨-, unconditional⟩, isVariable⟩, found⟩ := found
  refine ⟨?_, isVariable, fun middle above conditional => ?_⟩
  · split at found
    · rename_i target init shape
      rw [Option.ite_none_right_eq_some, Option.some.injEq, decide_eq_true_eq] at found
      obtain ⟨⟨⟨rfl, -⟩, -⟩, rfl⟩ := found
      exact shape
    · cases found
  · rw [steady.sound.isUnconditional_eq stands, Bool.and_eq_true] at unconditional
    simp only [decide_eq_true_eq, Bool.not_eq_true', List.any_eq_false] at unconditional
    by_contra outside
    rw [Bool.not_eq_true] at outside
    have between := steady.linked.mem_takeWhile_ancestors above outside
    exact unconditional.2 middle (by simpa using between) conditional

theorem not_isWithin_of_certain {use init : NodeId} {d : Declaration} (certain : p.Certain d init)
    (means : p.lexicon.meaning? use = some d) (made : p.evaluateWithin limit id = some v)
    (free : ¬p.tree.Binds id) (outside : p.tree.isWithin use id = false) :
    p.tree.isWithin d.identifier id = false := by
  have linked := steady.linked
  rw [Bool.eq_false_iff]
  intro within
  have notOwner : ¬p.tree.isWithin d.owner id = true := fun inside => by
    rw [linked.isWithin_trans (steady.isWithin_owner_of_meaning? means) inside] at outside
    cases outside
  have held : d.identifier ∈ (p.tree.node d.declaration).part .target := by
    rw [← node, certain.shape]
    exact List.mem_singleton_self _
  have different : d.identifier ≠ id := by
    rintro rfl
    exact free (.place (by simp) held)
  rw [linked.isWithin_parent (linked.parent?_of_mem_part held) different] at within
  have member := (Lexicon.binder?_some (Lexicon.meaning?_some means)).1
  rcases steady.confines_of_evaluateWithin made d member certain.isVariable within with
    inside | ⟨middle, above, inside, conditional⟩
  · exact notOwner inside
  · exact notOwner (linked.isWithin_trans (certain.unconditional middle above conditional) inside)

end Steady

end Program

end Unravel
