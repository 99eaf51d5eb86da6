import Unravel.Proofs.Program.Steady
import Unravel.Proofs.Scope.WellBound
import Unravel.Proofs.Tree.Sorted

/-!
Expressions whose scopes and names all belong to function expressions in them (`Tree.Sealed`), as
they do in every program that was parsed. What such an expression declares, it declares for itself.

Parts of a tree that declare names for themselves only (`Tree.Confines`), as operands do. When such
a part leaves and another one comes in, every other node means what it meant
(`Tree.Edited.meaning?_eq`).
-/

namespace Unravel

namespace Node

variable {α : Type}

/-- Whether a node, wherever it stands, opens no scope and declares no name. -/
def isInert : Node α → Bool
  | program _ | variableDeclaration .. | variableDeclarator .. | function _ | block _ |
    for_ .. | switch .. =>
    false
  | classDef c => !c.isDeclaration
  | _ => true

theorem isInert_tag (n : Node α) : n.tag.isInert = n.isInert := by cases n <;> rfl

end Node

namespace Tree

variable {t : Tree} {id outer owner root : NodeId} {d : Declaration}

theorem Linked.exists_dropWhile_scopesFrom (linked : t.Linked) (skip : NodeId → Bool)
    (within : t.isWithin id outer = true) (opens : t.opens outer = true)
    (found : skip outer = false) :
    ∃ owner rest, (t.scopesFrom id).dropWhile skip = owner :: rest ∧
      t.isWithin owner outer = true := by
  induction id using linked.induction with
  | step id induction =>
    rw [scopesFrom]
    by_cases reached : id = outer
    · subst reached
      rw [List.filter_cons, if_pos opens, List.dropWhile_cons, found]
      exact ⟨id, _, rfl, isWithin_self⟩
    · cases held : t.parent? id with
      | none => exact absurd ((isWithin_of_root held).mp within) reached
      | some parent =>
        have above := within
        rw [linked.isWithin_parent held reached] at above
        obtain ⟨owner, rest, found, inside⟩ := induction parent held above
        rw [scopesFrom, ← linked.ancestors_of_parent held] at found
        rw [List.filter_cons]
        split
        · rw [List.dropWhile_cons]
          split
          · exact ⟨owner, rest, found, inside⟩
          · exact ⟨id, _, rfl, within⟩
        · exact ⟨owner, rest, found, inside⟩

theorem exists_declarator (member : d ∈ t.declarationsAt id)
    (isVariable : d.kind.isVariable = true) :
    d.declaration ∈ (t.node id).part .declarators ∧
      (t.hoistTarget? (t.scopesFrom id) = some d.owner ∨
        (t.scopesFrom id).head? = some d.owner) := by
  -- Functions, parameters and classes are no variables.
  have otherwise {owner : Option NodeId} {kind : BindingKind} {declaration : NodeId}
      {names : List NodeId} (member : d ∈ t.declaredNames owner kind declaration names)
      (plain : kind.isVariable = false) :
        False := by
    rw [(mem_declaredNames.mp member).2.1, plain] at isVariable
    cases isVariable
  unfold declarationsAt at member
  split at member
  · obtain ⟨declarator, held, below⟩ := List.mem_flatMap.mp member
    obtain ⟨owner, -, same, -⟩ := mem_declaredNames.mp below
    refine ⟨same ▸ held, ?_⟩
    split at owner
    · exact .inl owner
    · exact .inr owner
  · rcases List.mem_append.mp member with member | member
    · split at member <;> exact (otherwise member rfl).elim
    · exact (otherwise member rfl).elim
  · split at member
    · exact (otherwise member rfl).elim
    · cases member
  · cases member

theorem Linked.isWithin_owner_of_function (linked : t.Linked) (member : d ∈ t.declarationsAt id)
    (isVariable : d.kind.isVariable = true) (within : t.isWithin id outer = true)
    (isFunction : (t.node outer).isFunction = true) : t.isWithin d.owner outer = true := by
  obtain ⟨f, shape⟩ : ∃ f, t.node outer = .function f := by
    cases shape : t.node outer <;> simp_all [Node.isFunction, Node.function?]
  have kind : t.scopeKind? outer = some .function := by rw [scopeKind?, shape]
  have opens : t.opens outer = true := by rw [Tree.opens, kind]; rfl
  rcases (exists_declarator member isVariable).2 with hoisted | nearest
  · obtain ⟨owner, rest, found, inside⟩ := linked.exists_dropWhile_scopesFrom
      (fun place => t.scopeKind? place = some .block) within opens (by simp [kind])
    rw [hoistTarget?, found] at hoisted
    exact Option.some.inj hoisted ▸ inside
  · obtain ⟨owner, rest, found, inside⟩ := linked.exists_dropWhile_scopesFrom (fun _ => false)
      within opens rfl
    have same : t.scopesFrom id = owner :: rest := by
      rw [← found]
      cases t.scopesFrom id <;> rfl
    rw [same] at nearest
    exact Option.some.inj nearest ▸ inside

theorem Linked.exists_head?_scopesFrom (linked : t.Linked) (within : t.isWithin id outer = true)
    (opens : t.opens outer = true) :
    ∃ owner, (t.scopesFrom id).head? = some owner ∧ t.isWithin owner outer = true := by
  obtain ⟨owner, rest, found, inside⟩ := linked.exists_dropWhile_scopesFrom (fun _ => false)
    within opens rfl
  refine ⟨owner, ?_, inside⟩
  rw [show t.scopesFrom id = owner :: rest by rw [← found]; cases t.scopesFrom id <;> rfl]
  rfl

/--
Whatever is declared in a function belongs to it or to a scope in it, but for the name of a
declaration. -/
theorem Linked.isWithin_owner_or_name (linked : t.Linked) {f : Function NodeId}
    (shape : t.node outer = .function f) (member : d ∈ t.declarationsAt id)
    (within : t.isWithin id outer = true) :
    t.isWithin d.owner outer = true ∨
      (f.kind = .declaration ∧ id = outer ∧ d.identifier ∈ (t.node outer).part .name) := by
  have opens := opens_of_function shape
  by_cases isVariable : d.kind.isVariable = true
  · exact .inl (linked.isWithin_owner_of_function member isVariable within (by rw [shape]; rfl))
  rw [Bool.not_eq_true] at isVariable
  unfold declarationsAt at member
  split at member
  case h_1 varKind _ _ =>
    obtain ⟨_, -, below⟩ := List.mem_flatMap.mp member
    rw [(mem_declaredNames.mp below).2.1] at isVariable
    cases varKind <;> cases isVariable
  case h_2 g tag =>
    rcases List.mem_append.mp member with member | member
    · split at member
      · rename_i isDeclaration
        by_cases different : id = outer
        · subst different
          rw [shape, Node.tag, Node.function.injEq] at tag
          rw [← tag] at isDeclaration
          exact .inr ⟨isDeclaration, rfl, (mem_declaredNames.mp member).2.2.2.1⟩
        obtain ⟨parent, held, within⟩ := linked.exists_parent_of_isWithin within different
        obtain ⟨owner, nearest, inside⟩ := linked.exists_head?_scopesFrom within opens
        have found := (mem_declaredNames.mp member).1
        rw [scopesAround, linked.ancestors_of_parent held, ← scopesFrom, nearest, Option.some.injEq]
          at found
        exact .inl (found ▸ inside)
      · have same := Option.some.inj (mem_declaredNames.mp member).1
        exact .inl (same ▸ within)
    · have same := Option.some.inj (mem_declaredNames.mp member).1
      exact .inl (same ▸ within)
  case h_3 c _ =>
    split at member
    · obtain ⟨owner, nearest, inside⟩ := linked.exists_head?_scopesFrom within opens
      have found := (mem_declaredNames.mp member).1
      rw [nearest, Option.some.injEq] at found
      exact .inl (found ▸ inside)
    · cases member
  case h_4 => cases member

/-- Whatever is declared in a function expression belongs to it or to a scope in it. -/
theorem Linked.isWithin_owner_of_expression (linked : t.Linked) {f : Function NodeId}
    (shape : t.node outer = .function f) (kind : f.kind = .expression)
    (member : d ∈ t.declarationsAt id) (within : t.isWithin id outer = true) :
    t.isWithin d.owner outer = true := by
  refine (linked.isWithin_owner_or_name shape member within).resolve_right fun named => ?_
  rw [kind] at named
  cases named.1

theorem declaration_cases (member : d ∈ t.declarationsAt id) :
    (d.declaration = id ∧ (t.node id).part .declarators = []) ∨
      (d.declaration ∈ (t.node id).part .declarators ∧
        d.identifier ∈ t.namesIn d.declaration .target) := by
  unfold declarationsAt at member
  split at member
  · obtain ⟨declarator, held, below⟩ := List.mem_flatMap.mp member
    obtain ⟨-, -, rfl, named, -⟩ := mem_declaredNames.mp below
    exact .inr ⟨held, named⟩
  · rename_i tag
    have none : (t.node id).part .declarators = [] := by
      cases shape : t.node id <;> simp_all [Node.tag, Node.part]
    rcases List.mem_append.mp member with member | member
    · split at member <;> exact .inl ⟨(mem_declaredNames.mp member).2.2.1, none⟩
    · exact .inl ⟨(mem_declaredNames.mp member).2.2.1, none⟩
  · rename_i tag
    have none : (t.node id).part .declarators = [] := by
      cases shape : t.node id <;> simp_all [Node.tag, Node.part]
    split at member
    · exact .inl ⟨(mem_declaredNames.mp member).2.2.1, none⟩
    · cases member
  · cases member

theorem isInert_of_declarationsAt (member : d ∈ t.declarationsAt id) :
    (t.node id).isInert = false := by
  rw [← Node.isInert_tag]
  unfold declarationsAt at member
  split at member
  · rename_i tag
    rw [tag]
    rfl
  · rename_i tag
    rw [tag]
    rfl
  · rename_i tag
    rw [tag]
    split at member
    · rename_i isDeclaration
      simp [Node.isInert, isDeclaration]
    · cases member
  · cases member

theorem isInert_of_opens (opens : t.opens id = true) : (t.node id).isInert = false := by
  rw [Tree.opens, scopeKind?] at opens
  cases shape : t.node id <;> simp_all [Node.isInert]

/-- A piece of a tree in which only function expressions open scopes and declare names. -/
inductive Sealed (t : Tree) : NodeId → Prop where
  | function {id : NodeId} {f : Function NodeId} (shape : t.node id = .function f)
      (kind : f.kind = .expression) :
      Sealed t id
  | inert {id : NodeId} (isInert : (t.node id).isInert = true)
      (children : ∀ child ∈ (t.node id).children, Sealed t child) : Sealed t id

namespace Sealed

variable (isSealed : t.Sealed root) (linked : t.Linked)

include isSealed linked

theorem exists_function (within : t.isWithin id root = true)
    (active : (t.node id).isInert = false) :
    ∃ outer f, t.node outer = .function f ∧ f.kind = .expression ∧ t.isWithin id outer = true ∧
      t.isWithin outer root = true := by
  induction isSealed with
  | @function root f shape kind => exact ⟨root, f, shape, kind, within, isWithin_self⟩
  | @inert root isInert _ induction =>
    have different : id ≠ root := by
      rintro rfl
      rw [isInert] at active
      cases active
    obtain ⟨child, member, below⟩ := linked.exists_child within different
    obtain ⟨outer, f, shape, kind, inside, further⟩ := induction child member below
    have above := linked.isWithin_of_parent (linked.mem_children.mp member)
    exact ⟨outer, f, shape, kind, inside, linked.isWithin_trans further above⟩

theorem isWithin_owner (member : d ∈ t.declarationsAt id) (within : t.isWithin id root = true) :
    t.isWithin d.owner root = true := by
  obtain ⟨outer, f, shape, kind, inside, further⟩ :=
    isSealed.exists_function linked within (isInert_of_declarationsAt member)
  exact linked.isWithin_trans (linked.isWithin_owner_of_expression shape kind member inside) further

theorem isWithin_owner_of_declaration (wellBound : t.WellBound) (member : d ∈ t.declarationsAt id)
    (within : t.isWithin d.declaration root = true) : t.isWithin d.owner root = true := by
  rcases declaration_cases member with ⟨same, -⟩ | ⟨held, -⟩
  · exact isSealed.isWithin_owner linked member (same ▸ within)
  · have different : d.declaration ≠ root := by
      intro same
      have isDeclarator := wellBound.declarator held
      cases isSealed with
      | function shape => rw [same, shape] at isDeclarator; cases isDeclarator
      | inert isInert => cases found : t.node root <;> simp_all [Node.isDeclarator, Node.isInert]
    rw [linked.isWithin_parent (linked.parent?_of_mem_part held) different] at within
    exact isSealed.isWithin_owner linked member within

end Sealed

end Tree

/-! ### Parts that declare names for themselves -/

namespace Node

variable {α : Type} {n : Node α}

theorem isInert_of_isOperand (isOperand : n.isOperand = true) (notFunction : n.isFunction = false) :
    n.isInert = true := by
  cases n <;> simp_all [Node.isOperand, isInert, isStatement, isCase, isDeclarator, isProgram,
    isFunction, function?]

end Node

namespace Tree

variable {t after : Tree} {own : NodeId → Prop} {root outer id old : NodeId} {new : Option NodeId}
  {d : Declaration}

/-- Operands of a sorted tree are sealed. -/
theorem Sorted.isSealed (sorted : t.Sorted own) (linked : t.Linked) (isOwn : own id)
    (allocated : t.Allocated id) (isOperand : (t.node id).isOperand = true) : t.Sealed id := by
  induction id, allocated using linked.induction_children with
  | step id allocated induction =>
    cases isFunction : (t.node id).isFunction with
    | true =>
      obtain ⟨f, shape⟩ : ∃ f, t.node id = .function f := by
        cases shape : t.node id <;> simp_all [Node.isFunction, Node.function?]
      have notStatement := Node.not_isStatement_of_isOperand isOperand
      rw [shape, Node.isStatement, decide_eq_false_iff_not] at notStatement
      exact .function shape (by cases kind : f.kind <;> simp_all)
    | false =>
      refine .inert (Node.isInert_of_isOperand isOperand isFunction) fun child member => ?_
      obtain ⟨isOwnChild, admitted⟩ := sorted.child isOwn member
      refine induction child (linked.mem_children.mp member) isOwnChild ?_
      cases childOperand : (t.node child).isOperand with
      | true => rfl
      | false =>
        rw [Node.isFunction_of_admits admitted isOperand childOperand] at isFunction
        cases isFunction

/-- What is declared at or below a node belongs to a scope there. -/
def Confines (t : Tree) (root outer : NodeId) : Prop :=
  ∀ d ∈ (t.lexicon root).declared, t.isWithin d.identifier outer = true →
    t.isWithin d.owner outer = true

section Confines

variable (linked : t.Linked) (isTop : t.IsTop root)

include linked isTop

theorem Sealed.confines (isSealed : t.Sealed outer) (free : ¬t.Binds outer)
    (plain : ∀ id, outer ∉ (t.node id).part .declarators) : t.Confines root outer := by
  intro d declared within
  obtain ⟨id, -, member⟩ := (linked.mem_declared isTop).mp declared
  cases inside : t.isWithin id outer with
  | true => exact isSealed.isWithin_owner linked member inside
  | false =>
    rcases linked.binds_or_declarator member within inside with binds | isDeclarator
    · exact absurd binds free
    · exact absurd isDeclarator (plain id)

theorem Confines.not_isWithin (confines : t.Confines root outer)
    (outside : t.isWithin id outer = false) (means : (t.lexicon root).meaning? id = some d) :
    t.isWithin d.identifier outer = false := by
  rw [Bool.eq_false_iff]
  intro within
  have declared := (Lexicon.binder?_some (Lexicon.meaning?_some means)).1
  rw [linked.isWithin_trans (linked.isWithin_owner_of_meaning? isTop means)
    (confines d declared within)] at outside
  cases outside

end Confines

/-- An exchange leaves a node its meaning if what is meant does not leave and what comes in declares
names for itself only. -/
theorem Edited.meaning?_eq (edited : t.Edited after old new) (linked : t.Linked)
    (possible : t.Exchangeable old new) (isTop : t.IsTop root)
    (attached : t.isWithin old root = true) (notNew : new ≠ some root) (stays : t.Stays old new id)
    (confines : ∀ n, new = some n → after.Confines root n)
    (kept : ∀ d, (t.lexicon root).meaning? id = some d → t.isWithin d.identifier old = false) :
    (after.lexicon root).meaning? id = (t.lexicon root).meaning? id := by
  have afterLinked := edited.linked linked possible
  have afterTop := edited.top_after linked possible isTop attached notNew
  have before : ((t.lexicon root).restrict fun id => !t.isWithin id old).meaning? id =
      (t.lexicon root).meaning? id :=
    Lexicon.meaning?_restrict_of_stays (by simp [stays.outside])
      fun d means => by simp [kept d means]
  have behind : ((after.lexicon root).restrict fun id => !t.isIncoming new id).meaning? id =
      (after.lexicon root).meaning? id := by
    refine Lexicon.meaning?_restrict_of_stays (by simp [stays.present]) fun d means => ?_
    rw [Bool.not_eq_true', Bool.eq_false_iff]
    intro incoming
    obtain ⟨n, rfl, within⟩ := isIncoming_iff.mp incoming
    have outside := stays.present
    rw [isIncoming_some, ← edited.isWithin_new linked possible rfl] at outside
    rw [← edited.isWithin_new linked possible rfl,
      (confines n rfl).not_isWithin afterLinked afterTop outside means] at within
    cases within
  rw [← behind, edited.restrict_lexicon linked possible isTop attached notNew, before]

end Tree

end Unravel
