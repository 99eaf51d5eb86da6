import Mathlib.Data.List.Forall2
import Mathlib.Tactic.Tauto
import Unravel.Proofs.Tree.Linked
import Unravel.Simplify.ArrayRead
import Unravel.Simplify.Branch
import Unravel.Simplify.ClassForm
import Unravel.Simplify.ConstantUse
import Unravel.Simplify.DottedCall
import Unravel.Simplify.Marshal
import Unravel.Simplify.ObjectLiteral
import Unravel.Simplify.Proxy

/-!
What the rules find. A rule that succeeds in planning a step has looked at nodes of a certain shape;
every such search has one lemma that says which (`Branch.of_plan?`, `ConstantUse.of_plan?`,
`ObjectLiteral.of_mem_plan`, `ClassForm.plan?_eq_some_iff`), and proofs about the rules go through
these lemmas.
-/

namespace Unravel

variable {p : Program}

theorem exists_of_forall₂ {α β : Type} {R : α → β → Prop} {l : List α} {m : List β} {a : α}
    (pairs : List.Forall₂ R l m) (member : a ∈ l) : ∃ b ∈ m, R a b := by
  induction pairs with
  | nil => cases member
  | cons first _ induction =>
    rcases List.mem_cons.mp member with rfl | later
    · exact ⟨_, List.mem_cons_self .., first⟩
    · obtain ⟨b, isPart, related⟩ := induction later
      exact ⟨b, List.mem_cons_of_mem _ isPart, related⟩

theorem Node.function?_eq_some_iff {α : Type} {n : Node α} {f : Function α} :
    n.function? = some f ↔ n = .function f := by
  cases n <;> simp [function?]

theorem Tree.of_singleReturn? {t : Tree} {function expression : NodeId}
    (found : t.singleReturn? function = some expression) :
    ∃ f only, t.node function = .function f ∧ t.node f.body = .block [only] ∧
      t.node only = .return_ (some expression) := by
  simp only [singleReturn?, bind, Option.bind_eq_some_iff] at found
  obtain ⟨f, isFunction, found⟩ := found
  split at found
  · rename_i only block
    split at found
    · rename_i argument returned
      subst found
      exact ⟨f, only, Node.function?_eq_some_iff.mp isFunction, block, returned⟩
    · cases found
  · cases found

theorem Tree.of_statementList? {t : Tree} {statement list : NodeId}
    (found : t.statementList? statement = some list) :
    t.parent? statement = some list ∧
      ∃ statements, (t.node list).statements? = some statements ∧ statement ∈ statements := by
  simp only [statementList?, bind, Option.bind_eq_some_iff] at found
  obtain ⟨parent, above, statements, isList, found⟩ := found
  split at found
  · rename_i member
    cases found
    exact ⟨above, statements, isList, member⟩
  · cases found

theorem Tree.of_mem_followingStatements {t : Tree} {statement other : NodeId}
    (follows : other ∈ t.followingStatements statement) :
    ∃ list statements, t.parent? statement = some list ∧
      (t.node list).statements? = some statements ∧
      other ∈ statements := by
  unfold followingStatements at follows
  split at follows
  · rename_i statements listed
    obtain ⟨list, found, listed⟩ := Option.bind_eq_some_iff.mp listed
    exact ⟨list, statements, (of_statementList? found).1, listed,
      (List.dropWhile_suffix _).subset (List.mem_of_mem_drop follows)⟩
  · cases follows

/-! ### Calls and choices -/

theorem DottedCall.of_plan? {call callee base : NodeId} {name : String}
    (planned : DottedCall.plan? p call = some (callee, base, name)) :
    ∃ key arguments, p.node call = .call callee arguments ∧ p.node callee = .member base key true ∧
      (p.node key).string? = some name ∧ Source.isIdentifierName name = true := by
  unfold plan? at planned
  split at planned
  · rename_i shape
    split at planned
    · rename_i memberShape
      split at planned
      · rename_i isKey
        split at planned
        · rename_i isName
          cases planned
          exact ⟨_, _, shape, memberShape, isKey, isName⟩
        · cases planned
      · cases planned
    · cases planned
  · cases planned

theorem Proxy.of_call? {c : Context} {call first second : NodeId} {proxy : OperatorProxy}
    (found : Proxy.call? p c call = some (proxy, first, second)) :
    ∃ callee, p.node call = .call callee [first, second] := by
  unfold call? at found
  split at found
  · rename_i callee a b shape
    split at found
    · simp only [bind, Option.ite_none_right_eq_some, Option.bind_eq_some_iff, pure,
        Option.some.injEq] at found
      obtain ⟨-, _, -, _, -, same⟩ := found
      cases same
      exact ⟨callee, shape⟩
    · cases found
  · cases found

theorem Proxy.of_definition? {id : NodeId} {d : Proxy.Definition}
    (found : Proxy.definition? p id = some d) :
    d.node = id ∧ ((∃ expression, p.node id = .expressionStatement expression) ∨
      ∃ key value computed, p.node id = .property key value computed) := by
  simp only [definition?, bind, Option.bind_eq_some_iff] at found
  obtain ⟨⟨target, key, value⟩, keyed, found⟩ := found
  split at found
  · cases found
  · simp only [pure, Option.bind_eq_some_iff, Option.some.injEq] at found
    obtain ⟨_, -, rfl⟩ := found
    unfold keyed? at keyed
    split at keyed
    · exact ⟨rfl, .inl ⟨_, ‹_›⟩⟩
    · exact ⟨rfl, .inr ⟨_, _, _, ‹_›⟩⟩
    · cases keyed

/--
A plan is one of a choice or of a loop that is not entered, and the value of the test decides what
is taken. -/
theorem Branch.of_plan? {id : NodeId} {plan : Branch.Plan}
    (planned : Branch.plan? p id = some plan) :
    ∃ value, p.evaluate? plan.test = some value ∧
      ((∃ consequent alternate, p.node id = .if_ plan.test consequent alternate ∧
          plan.taken = if value.toBool then some consequent else alternate) ∨
        (∃ consequent alternate, p.node id = .conditional plan.test consequent alternate ∧
          plan.taken = some (if value.toBool then consequent else alternate)) ∨
        ∃ body, p.node id = .while_ plan.test body ∧ value.toBool = false ∧ plan.taken = none) := by
  unfold plan? at planned
  dsimp only at planned
  split at planned
  · rename_i shape
    rw [Option.map_map, Option.map_eq_some_iff] at planned
    obtain ⟨value, isValue, rfl⟩ := planned
    exact ⟨value, isValue, .inl ⟨_, _, shape, rfl⟩⟩
  · rename_i shape
    rw [Option.map_map, Option.map_eq_some_iff] at planned
    obtain ⟨value, isValue, rfl⟩ := planned
    exact ⟨value, isValue, .inr (.inl ⟨_, _, shape, rfl⟩)⟩
  · rename_i shape
    split at planned
    · rename_i known
      obtain ⟨value, isValue, isFalse⟩ := Option.map_eq_some_iff.mp known
      cases planned
      exact ⟨value, isValue, .inr (.inr ⟨_, shape, isFalse, rfl⟩)⟩
    · cases planned
  · cases planned

theorem Branch.choice_of_plan? {id branch : NodeId} {plan : Branch.Plan}
    (planned : Branch.plan? p id = some plan) (taken : plan.taken = some branch) :
    branch ∈ (p.node id).children ∧
      ((∃ test consequent alternate, p.node id = .if_ test consequent alternate) ∨
        ∃ test consequent alternate, p.node id = .conditional test consequent alternate) := by
  obtain ⟨value, -, ⟨_, _, shape, isTaken⟩ | ⟨_, _, shape, isTaken⟩ | ⟨_, _, -, isTaken⟩⟩ :=
    Branch.of_plan? planned
  · refine ⟨?_, .inl ⟨_, _, _, shape⟩⟩
    rw [taken] at isTaken
    split at isTaken <;> simp_all [Node.children]
  · refine ⟨?_, .inr ⟨_, _, _, shape⟩⟩
    rw [taken] at isTaken
    split at isTaken <;> simp_all [Node.children]
  · rw [taken] at isTaken
    cases isTaken

/-! ### Constants and arrays -/

theorem ConstantUse.of_plan? {c : Context} {declarator : NodeId} {plan : ConstantUse.Plan}
    (planned : ConstantUse.plan? p c declarator = some plan) :
    ∃ binding, p.node declarator = .variableDeclarator plan.target (some plan.init) ∧
      p.bindingOf? plan.target = some binding ∧ (p.binding binding).mutations = [] ∧
        plan.uses = (p.binding binding).references ∧
        ConstantUse.isStable p binding plan.init = true := by
  unfold plan? at planned
  split at planned
  · rename_i target init shape
    simp only [bind, Option.bind_eq_some_iff] at planned
    obtain ⟨binding, belongs, planned⟩ := planned
    split at planned
    · rename_i holds
      cases planned
      simp only [Bool.and_eq_true, Program.isConstantVariable, Binding.isConstant,
        List.isEmpty_iff] at holds
      exact ⟨binding, shape, belongs, by tauto, rfl, holds.2⟩
    · cases planned
  · cases planned

theorem ConstantUse.unprotected_of_plan? {c : Context} {declarator : NodeId}
    {plan : ConstantUse.Plan} (planned : ConstantUse.plan? p c declarator = some plan) :
    ∃ binding, p.bindingOf? plan.target = some binding ∧
      (p.binding binding).identifier = plan.target ∧
      c.isProtected (p.binding binding).name = false := by
  unfold plan? at planned
  split at planned
  · simp only [bind, Option.bind_eq_some_iff] at planned
    obtain ⟨binding, belongs, planned⟩ := planned
    split at planned
    · rename_i holds
      cases planned
      simp only [Bool.and_eq_true, decide_eq_true_eq, Bool.not_eq_true'] at holds
      exact ⟨binding, belongs, by tauto, by tauto⟩
    · cases planned
  · cases planned

theorem Marshal.of_marshalled? {function name value : String} {id : NodeId}
    (found : Marshal.marshalled? p function id = some (name, value)) :
    ∃ target init binding callee argument, p.node id = .variableDeclarator target (some init) ∧
      (p.node target).identifier? = some name ∧ p.bindingOf? target = some binding ∧
      (p.binding binding).isConstant = true ∧ p.node init = .call callee [argument] ∧
        (p.node callee).isIdentifierNamed function = true ∧
        (p.node argument).string? = some value := by
  unfold marshalled? at found
  split at found
  · rename_i target init shape
    simp only [bind, Option.bind_eq_some_iff] at found
    obtain ⟨spelled, isTarget, binding, belongs, found⟩ := found
    split at found
    · rename_i callee argument callShape
      obtain ⟨text, isString, holds⟩ := Option.bind_eq_some_iff.mp found
      split at holds
      · rename_i isCall
        rw [Bool.and_eq_true] at isCall
        cases holds
        exact ⟨target, init, binding, callee, argument, shape, isTarget, belongs, isCall.2,
          callShape, isCall.1, isString⟩
      · cases holds
    · cases found
  · cases found

theorem ArrayRead.of_access? {reference : NodeId} {access : ArrayRead.Access}
    (found : ArrayRead.access? p reference = some access) :
    ∃ member key computed, p.tree.parent? reference = some member ∧
      p.node member = .member reference key computed := by
  simp only [access?, bind, Option.bind_eq_some_iff] at found
  obtain ⟨member, held, found⟩ := found
  split at found
  · rename_i base key computed shape
    split at found
    · cases found
    · rename_i isBase
      simp only [Bool.or_eq_true, decide_eq_true_eq, not_or, not_not] at isBase
      exact ⟨member, key, computed, held, isBase.1 ▸ shape⟩
  · cases found

/--
A read that can be replaced is one of a member, and what it reads is a literal among the elements of
the array. -/
theorem ArrayRead.of_mem_plan {c : Context} {binding : BindingId} {member element : NodeId}
    (planned : (member, element) ∈ ArrayRead.plan p c binding) :
    ∃ declarator init elements base key computed, p.initialized? binding = some (declarator, init) ∧
      p.node init = .array elements ∧ element ∈ elements ∧ p.tree.isLiteralValue element = true ∧
        p.node member = .member base key computed := by
  unfold plan at planned
  dsimp only at planned
  split at planned
  · cases planned
  · rename_i declarator init initialized
    split at planned
    · rename_i elements shape
      split at planned
      · obtain ⟨reference, -, read⟩ := List.mem_filterMap.mp planned
        unfold readAt? at read
        split at read
        · rename_i position access
          obtain ⟨found, key, computed, held, memberShape⟩ := of_access? access
          simp only [bind, Option.bind_eq_some_iff, held, Option.some.injEq] at read
          obtain ⟨other, isElement, holder, rfl, read⟩ := read
          split at read
          · rename_i isLiteral
            cases read
            refine ⟨declarator, init, elements, reference, key, computed, initialized, shape,
              ?_, isLiteral, memberShape⟩
            unfold elementAt? at isElement
            split at isElement
            · cases isElement
            · exact List.mem_of_getElem? isElement
          · cases read
        · cases read
      · cases planned
    · cases planned

/-! ### Objects -/

namespace ObjectLiteral

variable {declarator statement : NodeId} {object : EmptyObject} {entries : List Entry}
  {entry : Entry}

theorem shape_of_emptyObject? (found : emptyObject? p declarator = some object) :
    ∃ target, p.node declarator = .variableDeclarator target (some object.init) ∧
      p.node object.init = .object [] ∧
      (p.node target).identifier? = some object.name ∧ p.bindingOf? target = some object.binding ∧
        p.isConstantVariable object.binding = true := by
  unfold emptyObject? at found
  split at found
  · rename_i target init declaratorShape
    simp only [bind, Option.bind_eq_some_iff] at found
    obtain ⟨name, named, binding, belongs, found⟩ := found
    split at found
    · rename_i shape
      split at found
      · rename_i constant
        cases found
        exact ⟨target, declaratorShape, shape, named, belongs, constant⟩
      · cases found
    · cases found
  · cases found

theorem eq_of_key? {label key : NodeId} {computed : Bool}
    (found : key? p label computed = some (.computed key)) :
    key = label ∧ computed = true := by
  unfold key? at found
  split at found
  · rename_i isComputed
    split at found
    · cases found
    · cases found
      exact ⟨rfl, isComputed⟩
  · obtain ⟨_, -, isNamed⟩ := Option.map_eq_some_iff.mp found
    cases isNamed

theorem of_added? (added : added? p object statement = some entry) :
    ∃ expression target base label computed, entry.statement = statement ∧
      p.node statement = .expressionStatement expression ∧
      p.node expression = .assignment .assign target entry.value ∧
      p.node target = .member base label computed ∧
      (∀ key, entry.key = .computed key → key = label ∧ computed = true) ∧
      (p.node base).identifier? = some object.name ∧
      p.bindingOf? base = some object.binding ∧ mentions p object.name entry.value = false ∧
        if computed then mentions p object.name label = false
          else (p.node label).isIdentifier = true := by
  unfold added? at added
  split at added
  · rename_i expression statementShape
    split at added
    · rename_i expressionShape
      split at added
      · rename_i base label computed targetShape
        split at added
        · rename_i holds
          simp only [Bool.and_eq_true, Node.isIdentifierNamed, decide_eq_true_eq, Bool.not_eq_true',
            Bool.and_eq_false_iff] at holds
          obtain ⟨⟨⟨named, belongs⟩, silent⟩, keySilent⟩ := holds
          obtain ⟨key, isKey, rfl⟩ := Option.map_eq_some_iff.mp added
          refine ⟨expression, _, base, label, computed, rfl, statementShape,
            expressionShape, targetShape,
            fun other same => eq_of_key? (isKey.trans (congrArg some same)), named,
            belongs, silent, ?_⟩
          cases computed with
          | true => exact keySilent.resolve_left nofun
          | false =>
            rw [key?, if_neg Bool.false_ne_true] at isKey
            obtain ⟨name, isName, -⟩ := Option.map_eq_some_iff.mp isKey
            exact Option.isSome_of_eq_some isName
        · cases added
      · cases added
    · cases added
  · cases added

theorem exists_of_mem_entries {statements : List NodeId}
    (member : entry ∈ ObjectLiteral.entries p object statements) :
    ∃ statement ∈ statements, added? p object statement = some entry := by
  induction statements with
  | nil => cases member
  | cons statement rest induction =>
    have later (member : entry ∈ ObjectLiteral.entries p object rest) :
        ∃ statement' ∈ statement :: rest, added? p object statement' = some entry := by
      obtain ⟨other, isOther, added⟩ := induction member
      exact ⟨other, List.mem_cons_of_mem _ isOther, added⟩
    rw [ObjectLiteral.entries] at member
    split at member
    · rename_i first added
      rcases List.mem_cons.mp member with rfl | member
      · exact ⟨statement, List.mem_cons_self .., added⟩
      · exact later member
    · split at member
      · cases member
      · exact later member

/-- The entries come from the statements that follow the declaration of an empty object. -/
theorem of_plan? (planned : plan? p declarator = some (object, entries)) :
    emptyObject? p declarator = some object ∧
    ∃ declaration, p.tree.parent? declarator = some declaration ∧
      entries = ObjectLiteral.entries p object (p.tree.followingStatements declaration) ∧
      entries ≠ [] := by
  simp only [plan?, bind, Option.bind_eq_some_iff] at planned
  obtain ⟨found, isEmpty, declaration, held, planned⟩ := planned
  split at planned
  · cases planned
  · rename_i nonempty
    cases planned
    exact ⟨isEmpty, declaration, held, rfl, nonempty⟩

/-- What is rebuilt is an empty object. -/
theorem shape_of_plan? (planned : plan? p declarator = some (object, entries)) :
    p.node object.init = .object [] :=
  let ⟨_, _, shape, _⟩ := shape_of_emptyObject? (of_plan? planned).1
  shape

/-- The parts of an entry are parts of its statement, which follows the declaration. -/
theorem of_mem_plan (planned : plan? p declarator = some (object, entries))
    (member : entry ∈ entries) :
    ∃ declaration list statements expression target base label computed,
      p.tree.parent? declarator = some declaration ∧ p.tree.parent? declaration = some list ∧
      (p.node list).statements? = some statements ∧ entry.statement ∈ statements ∧
      p.node entry.statement = .expressionStatement expression ∧
      p.node expression = .assignment .assign target entry.value ∧
      p.node target = .member base label computed ∧
      ∀ key, entry.key = .computed key → key = label := by
  obtain ⟨-, declaration, held, rfl, -⟩ := of_plan? planned
  obtain ⟨_, follows, added⟩ := exists_of_mem_entries member
  obtain ⟨expression, target, base, label, computed, rfl, shape, expressionShape,
    targetShape, isKey, -⟩ :=
      of_added? added
  obtain ⟨list, statements, above, listed, isStatement⟩ := Tree.of_mem_followingStatements follows
  exact ⟨declaration, list, statements, expression, target, base, label, computed, held, above,
    listed, isStatement, shape, expressionShape, targetShape,
    fun key isComputed => (isKey key isComputed).1⟩

end ObjectLiteral

/-! ### Classes -/

namespace ClassForm

variable {function list use target : NodeId} {binding : BindingId} {method : Method}
  {methods more : List Method} {references : List NodeId} {name : String} {plan : Plan}

def Defines (p : Program) (list use : NodeId) (method : Method) : Prop :=
  ∃ holder prototype target key assignment, p.node holder = .member use prototype false ∧
    (p.node prototype).identifier? = some "prototype" ∧ p.node target = .member holder key false ∧
      (p.node key).identifier? = some method.name ∧
      p.node assignment = .assignment .assign target method.function ∧
      isPlainFunction (p.node method.function) = true ∧
      p.node method.statement = .expressionStatement assignment ∧
      p.tree.parent? method.statement = some list

theorem dotted?_eq_some_iff (linked : p.tree.Linked) {base holder : NodeId} :
    dotted? p base = some (holder, name) ↔
      ∃ key, p.node holder = .member base key false ∧ (p.node key).identifier? = some name := by
  simp only [dotted?, bind, Option.bind_eq_some_iff]
  constructor
  · rintro ⟨place, held, found⟩
    split at found
    · rename_i b key shape
      split at found
      · rename_i same
        obtain ⟨label, spelled, result⟩ := Option.bind_eq_some_iff.mp found
        cases result
        exact ⟨key, same ▸ shape, spelled⟩
      · cases found
    · cases found
  · rintro ⟨key, shape, spelled⟩
    have held : p.tree.parent? base = some holder := by
      rw [← linked.mem_children, show p.tree.node holder = _ from shape]
      simp [Node.children]
    exact ⟨holder, held, by simp [shape, spelled]⟩

theorem method?_eq_some_iff (linked : p.tree.Linked) :
    method? p list use = some method ↔ Defines p list use method := by
  have held {child parent : NodeId} (isChild : child ∈ (p.node parent).children) :
      p.tree.parent? child = some parent :=
    linked.mem_children.mp isChild
  simp only [method?, bind, Option.bind_eq_some_iff]
  constructor
  · rintro ⟨⟨holder, label⟩, first, ⟨target, name⟩, second, assignment, isAssignment, statement,
      isStatement, found⟩
    obtain ⟨prototype, holderShape, isPrototype⟩ := (dotted?_eq_some_iff linked).mp first
    obtain ⟨key, targetShape, spelled⟩ := (dotted?_eq_some_iff linked).mp second
    split at found
    · rename_i left right expression assignmentShape statementShape
      split at found
      · rename_i holds
        cases found
        simp only [Bool.and_eq_true, decide_eq_true_eq] at holds
        obtain ⟨⟨⟨rfl, rfl⟩, isPlain⟩, inList⟩ := holds
        have isExpression : assignment = expression := by
          have isChild := linked.mem_children.mpr isStatement
          rw [show p.tree.node statement = _ from statementShape] at isChild
          exact List.mem_singleton.mp isChild
        exact ⟨holder, prototype, left, key, assignment, holderShape, isPrototype, targetShape,
          spelled, assignmentShape, isPlain, isExpression ▸ statementShape, inList⟩
      · cases found
    · cases found
  · rintro ⟨holder, prototype, target, key, assignment, holderShape, isPrototype, targetShape,
      spelled, assignmentShape, isPlain, statementShape, inList⟩
    refine ⟨(holder, "prototype"), (dotted?_eq_some_iff linked).mpr ⟨prototype,
      holderShape, isPrototype⟩, (target, method.name), (dotted?_eq_some_iff linked).mpr ⟨key,
        targetShape, spelled⟩, assignment,
      held (by rw [assignmentShape]; simp [Node.children]), method.statement,
      held (by rw [statementShape]; simp [Node.children]), ?_⟩
    simp [assignmentShape, statementShape, isPlain, inList]

theorem isNewCallee_iff (linked : p.tree.Linked) :
    isNewCallee p use = true ↔ ∃ holder arguments, p.node holder = .new use arguments := by
  rw [isNewCallee]
  constructor
  · intro isCallee
    split at isCallee
    · rename_i callee arguments found
      obtain ⟨holder, -, shape⟩ := Option.map_eq_some_iff.mp found
      exact ⟨holder, arguments, by rw [shape, of_decide_eq_true isCallee]⟩
    · cases isCallee
  · rintro ⟨holder, arguments, shape⟩
    have held : p.tree.parent? use = some holder := by
      rw [← linked.mem_children, show p.tree.node holder = _ from shape]
      exact List.mem_cons_self ..
    simp [held, shape]

namespace Defines

variable {other : NodeId} {method' : Method} (defines : Defines p list use method)

include defines

theorem parent? : p.tree.parent? method.statement = some list := by
  obtain ⟨_, _, _, _, _, -, -, -, -, -, -, -, inList⟩ := defines
  exact inList

theorem exists_expression :
    ∃ expression, p.node method.statement = .expressionStatement expression := by
  obtain ⟨_, _, _, _, assignment, -, -, -, -, -, -, shape, -⟩ := defines
  exact ⟨assignment, shape⟩

theorem exists_function :
    ∃ g, p.node method.function = .function g ∧ g.kind = .expression ∧ g.name = none ∧
      g.isGenerator = false ∧ g.isAsync = false := by
  obtain ⟨_, _, _, _, _, -, -, -, -, -, isPlain, -⟩ := defines
  obtain ⟨g, isFunction, isPlain⟩ := (Option.any_eq_true _ _).mp isPlain
  simp only [Bool.and_eq_true, Bool.not_eq_true', decide_eq_true_eq,
    Option.isNone_iff_eq_none] at isPlain
  obtain ⟨⟨⟨kind, unnamed⟩, notGenerator⟩, notAsync⟩ := isPlain
  exact ⟨g, Node.function?_eq_some_iff.mp isFunction, kind, unnamed, notGenerator, notAsync⟩

theorem eq_of_statement_eq (further : Defines p list other method')
    (same : method'.statement = method.statement) :
    other = use := by
  obtain ⟨holder, _, target, _, assignment, holderShape, -, targetShape, -, assignmentShape, -,
    shape, -⟩ := defines
  obtain ⟨holder', _, target', _, assignment', holderShape', -, targetShape', -,
    assignmentShape', -, shape', -⟩ := further
  rw [same, shape, Node.expressionStatement.injEq] at shape'
  subst shape'
  rw [assignmentShape, Node.assignment.injEq] at assignmentShape'
  obtain ⟨-, rfl, -⟩ := assignmentShape'
  rw [targetShape, Node.member.injEq] at targetShape'
  obtain ⟨rfl, -⟩ := targetShape'
  rw [holderShape, Node.member.injEq] at holderShape'
  exact holderShape'.1.symm

variable (linked : p.tree.Linked)

include linked

theorem exists_assignment : ∃ assignment left, p.tree.parent? assignment = some method.statement ∧
    p.tree.parent? left = some assignment ∧ p.tree.parent? method.function = some assignment ∧
      left ≠ method.function ∧
        p.tree.isWithin use left = true := by
  obtain ⟨holder, prototype, target, key, assignment, holderShape, -, targetShape, -,
    assignmentShape, -, shape, -⟩ := defines
  have held {id child : NodeId} {n : Node NodeId} (shape : p.node id = n)
      (isChild : child ∈ n.children) :
      p.tree.parent? child = some id := by
    rw [← linked.mem_children, show p.tree.node id = _ from shape]
    exact isChild
  have distinct := linked.nodup_children assignment
  rw [show p.tree.node assignment = _ from assignmentShape] at distinct
  refine ⟨assignment, target, held shape (by simp [Node.children]),
    held assignmentShape (by simp [Node.children]), held assignmentShape (by simp [Node.children]),
    by simpa [Node.children] using distinct, ?_⟩
  exact linked.isWithin_trans
    (linked.isWithin_of_parent (held holderShape (by simp [Node.children])))
    (linked.isWithin_of_parent (held targetShape (by simp [Node.children])))

theorem isWithin : p.tree.isWithin use method.statement = true ∧
    p.tree.isWithin method.function method.statement = true := by
  obtain ⟨assignment, left, held, leftHeld, functionHeld, -, within⟩ :=
    defines.exists_assignment linked
  have below := linked.isWithin_of_parent held
  exact ⟨linked.isWithin_trans within
    (linked.isWithin_trans (linked.isWithin_of_parent leftHeld) below),
    linked.isWithin_trans (linked.isWithin_of_parent functionHeld) below⟩

end Defines

/-- The uses of a name that define methods if the name can be that of a class. -/
def definitions (p : Program) (references : List NodeId) : List NodeId :=
  references.filter fun use => !isNewCallee p use

theorem mem_definitions :
    use ∈ definitions p references ↔ use ∈ references ∧ isNewCallee p use = false := by
  simp [definitions]

structure Collected (p : Program) (function list : NodeId) (references : List NodeId)
    (methods : List Method) :
    Prop where
  precedes : ∀ use ∈ references, p.tree.precedes function use = true
  defines : List.Forall₂ (Defines p list) (definitions p references) methods
  distinct : methods.Pairwise fun a b => a.name ≠ b.name
  notConstructor : ∀ method ∈ methods, method.name ≠ "constructor"

theorem addUse_eq_some_iff (linked : p.tree.Linked) :
    addUse p function list methods use = some more ↔
      p.tree.precedes function use = true ∧ (isNewCallee p use = true ∧ more = methods ∨
        isNewCallee p use = false ∧
        ∃ method, Defines p list use method ∧ method.name ≠ "constructor" ∧
          (∀ other ∈ methods, other.name ≠ method.name) ∧ more = methods ++ [method]) := by
  unfold addUse
  cases p.tree.precedes function use with
  | false => simp
  | true =>
    cases isNewCallee p use with
    | true => simp [eq_comm]
    | false =>
      simp only [Bool.not_true, Bool.false_eq_true, if_false, Option.bind_eq_some_iff,
        method?_eq_some_iff linked, true_and, false_and, false_or]
      refine exists_congr fun method => and_congr_right fun _ => ?_
      split
      · rename_i taken
        simp only [reduceCtorEq, false_iff]
        rintro ⟨other, apart, -⟩
        simp only [Bool.or_eq_true, decide_eq_true_eq, List.any_eq_true] at taken
        rcases taken with isConstructor | ⟨found, member, same⟩
        · exact other isConstructor
        · exact apart found member same
      · rename_i isOther
        simp only [Bool.or_eq_true, decide_eq_true_eq, List.any_eq_true, not_or, not_exists,
          not_and] at isOther
        rw [Option.some.injEq, eq_comm, and_iff_right isOther.1, and_iff_right isOther.2]

theorem foldlM_addUse_eq_some_iff (linked : p.tree.Linked) {start : List Method} :
    references.foldlM (addUse p function list) start = some methods ↔
      ∃ further, methods = start ++ further ∧
        Collected p function list references further ∧
        ∀ before ∈ start, ∀ method ∈ further, before.name ≠ method.name := by
  induction references generalizing start with
  | nil =>
    constructor
    · intro found
      cases found
      exact ⟨[], by simp, ⟨by simp, .nil, .nil, by simp⟩, by simp⟩
    · rintro ⟨further, rfl, collected, -⟩
      cases collected.defines
      rw [List.append_nil]
      rfl
  | cons use rest induction =>
    simp only [List.foldlM_cons, Option.bind_eq_bind, Option.bind_eq_some_iff,
      addUse_eq_some_iff linked, induction]
    constructor
    · rintro ⟨_, ⟨precedes, ⟨isCallee, rfl⟩ | ⟨notCallee, method, defines, other, apart, rfl⟩⟩,
        further, rfl, collected, distinct⟩
      · refine ⟨further, rfl, ⟨List.forall_mem_cons.mpr ⟨precedes, collected.precedes⟩, ?_,
          collected.distinct, collected.notConstructor⟩, distinct⟩
        rw [definitions, List.filter_cons_of_neg (by simp [isCallee])]
        exact collected.defines
      · refine ⟨method :: further, by simp,
          ⟨List.forall_mem_cons.mpr ⟨precedes, collected.precedes⟩, ?_,
            List.pairwise_cons.mpr ⟨distinct method (by simp), collected.distinct⟩,
            List.forall_mem_cons.mpr ⟨other, collected.notConstructor⟩⟩, fun before member =>
              List.forall_mem_cons.mpr ⟨apart before member,
                distinct before (List.mem_append_left _ member)⟩⟩
        rw [definitions, List.filter_cons_of_pos (by simp [notCallee])]
        exact .cons defines collected.defines
    · rintro ⟨further, rfl, ⟨precedes, defines, distinct, other⟩, apart⟩
      rw [List.forall_mem_cons] at precedes
      cases isCallee : isNewCallee p use with
      | true =>
        rw [definitions, List.filter_cons_of_neg (by simp [isCallee])] at defines
        exact ⟨start, ⟨precedes.1, .inl ⟨rfl, rfl⟩⟩, further, rfl,
          ⟨precedes.2, defines, distinct, other⟩, apart⟩
      | false =>
        rw [definitions, List.filter_cons_of_pos (by simp [isCallee])] at defines
        obtain - | ⟨isFirst, others⟩ := defines
        rename_i method further
        rw [List.pairwise_cons] at distinct
        rw [List.forall_mem_cons] at other
        refine ⟨start ++ [method],
          ⟨precedes.1, .inr ⟨rfl, method, isFirst, other.1, fun before member =>
            apart before member method (List.mem_cons_self ..), rfl⟩⟩, further, by simp,
          ⟨precedes.2, others, distinct.2, other.2⟩, fun before member => ?_⟩
        rcases List.mem_append.mp member with member | isMethod
        · exact fun method isFurther =>
            apart before member method (List.mem_cons_of_mem _ isFurther)
        · exact List.mem_singleton.mp isMethod ▸ distinct.1

theorem methods?_eq_some_iff (linked : p.tree.Linked) {binding : BindingId} :
    methods? p function binding = some methods ↔
      ∃ list, p.tree.statementList? function = some list ∧
        Collected p function list (p.binding binding).references methods := by
  simp only [methods?, bind, Option.bind_eq_some_iff, foldlM_addUse_eq_some_iff linked]
  simp

/-- A function declaration can become a class. Its name is never written, and all uses of the name
come behind it. In the order in which the table has them, they are `new` expressions or define the
methods. -/
structure Fits (p : Program) (function : NodeId) (plan : Plan) (target : NodeId)
    (binding : BindingId) (list : NodeId) :
    Prop where
  shape : p.node function = .function plan.function
  isDeclaration : plan.function.kind = .declaration
  notGenerator : plan.function.isGenerator = false
  notAsync : plan.function.isAsync = false
  usesThis : p.tree.usesThis plan.function.body = true
  named : plan.function.name = some target
  spelled : (p.node target).identifier? = some plan.name
  belongs : p.bindingOf? target = some binding
  unwritten : (p.binding binding).mutations = []
  referenced : (p.binding binding).isReferenced = true
  isList : p.tree.statementList? function = some list
  collected : Collected p function list (p.binding binding).references plan.methods

theorem plan?_eq_some_iff (linked : p.tree.Linked) : plan? p c function = some plan ↔
    c.isProtected plan.name = false ∧
    ∃ target binding list, Fits p function plan target binding list := by
  obtain ⟨name, f, methods⟩ := plan
  simp only [plan?, constructor?, bind, Option.bind_eq_some_iff, methods?_eq_some_iff linked]
  constructor
  · rintro ⟨⟨_, binding⟩, ⟨f, isFunction, target, named, name, spelled, _, belongs, found⟩, g,
      same, methods, ⟨list, isList, collected⟩, made⟩
    cases made
    rw [isFunction, Option.some.injEq] at same
    subst same
    split at found
    · rename_i holds
      cases found
      simp only [Bool.and_eq_true, Bool.not_eq_true', decide_eq_true_eq] at holds
      obtain ⟨⟨⟨⟨⟨⟨isDeclaration, notGenerator⟩, notAsync⟩, usesThis⟩, isConstant⟩, isReferenced⟩,
        unprotected⟩ := holds
      exact ⟨unprotected, target, binding, list, Node.function?_eq_some_iff.mp isFunction,
        isDeclaration, notGenerator, notAsync, usesThis, named, spelled, belongs,
        List.isEmpty_iff.mp isConstant, isReferenced, isList, collected⟩
    · cases found
  · rintro ⟨unprotected, target, binding, list, fits⟩
    have isFunction := Node.function?_eq_some_iff.mpr fits.shape
    have isConstant : (p.binding binding).isConstant = true := List.isEmpty_iff.mpr fits.unwritten
    refine ⟨(name, binding), ⟨f, isFunction, target, fits.named, name, fits.spelled, binding,
      fits.belongs, if_pos ?_⟩, f, isFunction, methods, ⟨list, fits.isList, fits.collected⟩, rfl⟩
    have isDeclaration : f.kind = .declaration := fits.isDeclaration
    have notGenerator : f.isGenerator = false := fits.notGenerator
    have notAsync : f.isAsync = false := fits.notAsync
    simp [isDeclaration, notGenerator, notAsync, fits.usesThis, isConstant,
      fits.referenced, unprotected]

namespace Fits

variable (fits : Fits p function plan target binding list)

include fits

theorem held : p.tree.parent? function = some list := (Tree.of_statementList? fits.isList).1

theorem exists_use (member : method ∈ plan.methods) :
    ∃ use ∈ (p.binding binding).references, Defines p list use method := by
  obtain ⟨use, isUse, defines⟩ := exists_of_forall₂ fits.collected.defines.flip member
  exact ⟨use, (mem_definitions.mp isUse).1, defines⟩

theorem exists_method_or (member : use ∈ (p.binding binding).references) :
    (∃ method ∈ plan.methods, Defines p list use method) ∨ isNewCallee p use = true := by
  cases isCallee : isNewCallee p use with
  | true => exact .inr rfl
  | false =>
    exact .inl (exists_of_forall₂ fits.collected.defines (mem_definitions.mpr ⟨member, isCallee⟩))

end Fits

end ClassForm

end Unravel
