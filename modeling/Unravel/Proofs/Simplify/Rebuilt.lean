import Unravel.Proofs.Simplify.Built
import Unravel.Proofs.Simplify.Cleared
import Unravel.Proofs.Simplify.Dismantled
import Unravel.Proofs.Simplify.Restated

/-!
Functions that become classes.
-/

namespace Unravel

open SimplifyM Program

variable {t mid after : Tree} {p q r : Program} {c : Context} {id : NodeId} {n : Node NodeId}

namespace Tree

variable {top owner : NodeId} {name : String} {d : Declaration}

theorem Linked.exists_look? (linked : t.Linked) (member : owner ∈ t.beyond id)
    (bound : (t.lexicon top).binder? owner name = some d) : ∃ e ∈ (t.lexicon top).declared,
      (t.lexicon top).look? (t.beyond id) name = some e ∧ e.name = name ∧ e.owner ∈ t.beyond id ∧
        t.isWithin e.owner owner = true ∧ (e.owner = owner → e = d) := by
  have declares : t.Declares top owner name := binder?_isSome.mp (by rw [bound]; rfl)
  cases found : (t.lexicon top).look? (t.beyond id) name with
  | none => exact absurd declares (look?_eq_none_iff.mp found owner member)
  | some e =>
    obtain ⟨inSight, isBound, least⟩ := nearest_of_look? (linked.pairwise_beyond id) found
    obtain ⟨declared, -, isName⟩ := Lexicon.binder?_some isBound
    refine ⟨e, declared, rfl, isName, inSight, least owner member declares, ?_⟩
    rintro rfl
    exact Option.some.inj (isBound.symm.trans bound)

theorem exists_declared_of_meaning? (notUse : (t.role id).isUse = false)
    (means : (t.lexicon top).meaning? id = some d) :
    ∃ e ∈ (t.lexicon top).declared, e.identifier = id ∧ e.owner = d.owner ∧ e.name = d.name := by
  have unused : (t.lexicon top).uses id = none := by
    simp only [lexicon, useAt?, notUse]
    simp
  rw [Lexicon.meaning?, unused] at means
  obtain ⟨e, found, bound⟩ := Option.bind_eq_some_iff.mp means
  obtain ⟨declared, isIdentifier⟩ := Lexicon.declarationOf?_some found
  obtain ⟨-, isOwner, isName⟩ := Lexicon.binder?_some bound
  exact ⟨e, declared, isIdentifier, isOwner.symm, isName.symm⟩

theorem Linked.isWithin_of_head?_scopesFrom (linked : t.Linked)
    (nearest : (t.scopesFrom id).head? = some owner) {outer : NodeId}
    (within : t.isWithin id outer = true) (opens : t.opens outer = true) :
    t.isWithin owner outer = true := by
  obtain ⟨first, isFirst, inside⟩ := linked.exists_head?_scopesFrom within opens
  rw [nearest, Option.some.injEq] at isFirst
  exact isFirst ▸ inside

end Tree

theorem Node.exists_children_eq {α : Type} {n : Node α} {statements : List α}
    (isList : n.statements? = some statements) :
    ∃ front, n.children = front ++ statements := by
  cases n <;> simp_all [statements?, children]

namespace ClassForm

variable {methods more : List Method} {method : Method} {f : Function NodeId} {name : String}
  {function list use class_ label value body member : NodeId}
  {params members uses references : List NodeId}

/-! ### What is collected -/

namespace Defines

variable {other : NodeId} {method' : Method} (defines : Defines p list use method)

include defines

/-- Only the function in the statement declares anything. -/
theorem isSealed (isIdentifier : (p.node use).isIdentifier = true) :
    p.tree.Sealed method.statement := by
  obtain ⟨g, isFunction, kind, -⟩ := defines.exists_function
  obtain ⟨holder, prototype, target, key, assignment, holderShape, isPrototype, targetShape, isKey,
    assignmentShape, -, shape, -⟩ := defines
  have leaf {id : NodeId} (isIdentifier : (p.node id).isIdentifier = true) : p.tree.Sealed id := by
    refine .inert ?_ (by simp [Tree.children_of_isIdentifier isIdentifier])
    cases isNode : p.tree.node id <;> simp_all [Program.node, Node.isIdentifier,
      Node.identifier?, Node.isInert]
  have inert {id : NodeId} {n : Node NodeId} (shape : p.node id = n) (isInert : n.isInert = true)
      (children : ∀ child ∈ n.children, p.tree.Sealed child) : p.tree.Sealed id := by
    subst shape
    exact .inert isInert children
  have prototypeSealed := leaf (Option.isSome_of_eq_some isPrototype)
  have keySealed := leaf (Option.isSome_of_eq_some isKey)
  have functionSealed : p.tree.Sealed method.function := .function isFunction kind
  have holderSealed :=
    inert holderShape rfl (by simp [Node.children, leaf isIdentifier, prototypeSealed])
  have targetSealed := inert targetShape rfl (by simp [Node.children, holderSealed, keySealed])
  have assignmentSealed :=
    inert assignmentShape rfl (by simp [Node.children, targetSealed, functionSealed])
  exact inert shape rfl (by simp [Node.children, assignmentSealed])

theorem precedes_eq (linked : p.tree.Linked) (further : Defines p list other method') :
    p.tree.precedes use other = p.tree.precedes method.statement method'.statement := by
  by_cases same : method.statement = method'.statement
  · rw [defines.eq_of_statement_eq further same.symm, same, Tree.not_precedes_self,
      Tree.not_precedes_self]
  · have first := (defines.isWithin linked).1
    have second := (further.isWithin linked).1
    rw [Bool.eq_iff_iff, linked.precedes_iff_ahead defines.parent? further.parent?
      same first second, linked.precedes_iff_ahead defines.parent? further.parent? same
        Tree.isWithin_self Tree.isWithin_self]

end Defines

theorem pairwise_precedes_iff (linked : p.tree.Linked)
    (defines : List.Forall₂ (Defines p list) uses methods) :
    (methods.map Method.statement).Pairwise (fun a b => p.tree.precedes a b = true) ↔
      uses.Pairwise fun a b => p.tree.precedes a b = true := by
  induction defines with
  | nil => simp
  | @cons use method uses methods isFirst others induction =>
    rw [List.map_cons, List.pairwise_cons, List.pairwise_cons, induction]
    refine and_congr_left
      fun _ => ⟨fun before other isUse => ?_, fun before statement isStatement => ?_⟩
    · obtain ⟨further, isMethod, isOther⟩ := exists_of_forall₂ others isUse
      rw [isFirst.precedes_eq linked isOther]
      exact before _ (List.mem_map_of_mem isMethod)
    · obtain ⟨further, isMethod, rfl⟩ := List.mem_map.mp isStatement
      obtain ⟨other, isUse, isOther⟩ := exists_of_forall₂ others.flip isMethod
      rw [← isFirst.precedes_eq linked isOther]
      exact before other isUse

/-! ### What is planned -/

variable {plan : Plan} {target : NodeId} {binding : BindingId} {statements : List NodeId}

theorem exists_of_step {w v : Workspace} {changed : Bool}
    (stepped : step function w = .ok changed v) :
    (changed = false ∧ v = w) ∨ ∃ plan between placed, changed = true ∧
      plan? w.program w.context function = some plan ∧
      Clears { w.program with
        tree := (classOf plan.function plan.name plan.methods w.program.tree).2 }
          (plan.methods.map Method.statement) between ∧
      between.replace function (classOf plan.function plan.name plan.methods w.program.tree).1 =
        .ok (placed, v.program) := by
  rw [step, program_bind, context_bind] at stepped
  cases planned : plan? w.program w.context function with
  | none =>
    simp only [planned] at stepped
    obtain ⟨rfl, rfl⟩ := EStateM.Result.ok.inj stepped
    exact .inl ⟨rfl, rfl⟩
  | some plan =>
    simp only [planned, build_bind] at stepped
    obtain ⟨_, between, cleared, stepped⟩ := exists_of_bind_ok stepped
    obtain ⟨placed, after, replaced, stepped⟩ := exists_of_bind_ok stepped
    have done := of_replace_eq_ok replaced
    rw [record_bind] at stepped
    obtain ⟨rfl, rfl⟩ := EStateM.Result.ok.inj stepped
    exact .inr ⟨plan, between.program, placed, rfl, rfl, clears_of_forIn cleared, done⟩

theorem exists_meant {g : Function NodeId} {outer outer' owner x : NodeId} {d e : Declaration}
    (restated : p.tree.Restated q.tree g outer outer' params body) (steady : p.Steady)
    (after : q.Steady) (attached : p.tree.isWithin outer p.root = true)
    (attachedAfter : q.tree.isWithin outer' q.root = true)
    (bound : p.lexicon.binder? owner name = some d) (opens : p.tree.opens owner = true)
    (around : p.tree.isWithin outer owner = true)
    (nearest : ∀ place, p.tree.isWithin outer place = true → place ≠ outer →
      p.tree.opens place = true →
      p.tree.isWithin owner place = true)
    (means : q.lexicon.meaning? x = some e) (named : e.name = name)
    (outside : q.tree.isWithin e.owner outer' = false) (within : q.tree.isWithin x outer' = true) :
    ∃ root f id, f outer = outer' ∧ p.tree.Hosted q.tree outer root f ∧
      p.tree.isWithin id root = true ∧ f id = x ∧
        (p.tree.role id).isUse = true ∧ p.lexicon.meaning? id = some d := by
  have linked := steady.linked
  have linkedNow := after.linked
  obtain ⟨spelled, -⟩ := after.sound.of_meaning? means
  rw [named] at spelled
  have isUse : (q.tree.role x).isUse = true := by
    by_contra notUse
    obtain ⟨own, declared, isIdentifier, isOwner, -⟩ := Tree.exists_declared_of_meaning?
      (Bool.eq_false_iff.mpr notUse) means
    have free : q.Free outer' := .of_isPlain after (by rw [Program.node, restated.shapeAfter]; rfl)
    have confines := (Tree.Sealed.function restated.shapeAfter rfl).confines linkedNow after.isTop
      free.notBinding fun id held => by
        have isDeclarator := after.wellBound.declarator held
        rw [show (q.tree.node outer').isDeclarator = false from free.notDeclaring] at isDeclarator
        cases isDeclarator
    have inside := confines own declared (by rwa [isIdentifier])
    rw [isOwner, outside] at inside
    cases inside
  have different : x ≠ outer' := by
    rintro rfl
    rw [Program.node, restated.shapeAfter] at spelled
    cases spelled
  obtain ⟨part, isPart, below⟩ := linkedNow.exists_child within different
  rw [restated.shapeAfter] at isPart
  obtain ⟨root, f, id, isOuter, hosted, inside, rfl⟩ := restated.exists_original linked
    linkedNow isPart below
  have isUseBefore :
      (p.tree.role id).isUse = true := by rwa [← hosted.role_eq linked linkedNow inside]
  have spelledBefore : (p.tree.node id).identifier? = some name := by
    rwa [← hosted.identifier? inside]
  have closed := Scopes.opens_of_identifier? spelledBefore
  have idWithin := hosted.isWithin_outer linked inside
  have region : p.tree.InRegion outer id := ⟨Tree.opens_of_function restated.shape, idWithin,
    fun discriminant held => by
    rw [restated.shape] at held
    cases held⟩
  have inSight := (linked.mem_beyond_iff closed).mpr ⟨opens, outer, region, around⟩
  obtain ⟨first, declared, found, isName, firstInSight, firstWithin, isBound⟩ :=
    linked.exists_look? inSight bound
  have foundAfter : q.lexicon.look? (q.tree.beyond (f id)) name = some e := by
    rwa [← linkedNow.meaning?_of_isUse (linkedNow.isWithin_trans within attachedAfter)
      spelled isUse]
  refine ⟨root, f, id, isOuter, hosted, inside, rfl, isUseBefore, ?_⟩
  rw [linked.meaning?_of_isUse (linked.isWithin_trans idWithin attached) spelledBefore isUseBefore,
    found, Option.some.injEq]
  refine isBound (linked.isWithin_antisymm firstWithin ?_)
  have notInside : p.tree.isWithin first.owner outer = false := by
    rw [Bool.eq_false_iff]
    intro firstInside
    have turned := restated.isWithin_owner linked linkedNow hosted isOuter steady.isTop after.isTop
      attachedAfter inside closed firstInSight firstInside ⟨first, declared, rfl, isName⟩ foundAfter
    rw [outside] at turned
    cases turned
  obtain ⟨isAbove, isOpen⟩ := linked.mem_beyond firstInSight
  have outerWithin : p.tree.isWithin outer first.owner = true := by
    rcases linked.isWithin_linear (Tree.isWithin_iff.mpr (.inr isAbove)) idWithin with
      further | around
    · rw [notInside] at further
      cases further
    · exact around
  refine nearest first.owner outerWithin ?_ isOpen
  rintro same
  rw [same, Tree.isWithin_self] at notInside
  cases notInside

namespace Fits

variable {owner x : NodeId} {d : Declaration} (fits : Fits p function plan target binding list)
  (steady : p.Steady) (attached : p.tree.isWithin function p.root = true)

include fits

include steady

theorem exists_statements : ∃ statements, (p.node list).statements? = some statements ∧
    ∀ statement ∈ plan.methods.map Method.statement, statement ∈ statements := by
  have linked := steady.linked
  obtain ⟨held, statements, isList, isListed⟩ := Tree.of_statementList? fits.isList
  refine ⟨statements, isList, fun statement member => ?_⟩
  obtain ⟨method, isMethod, rfl⟩ := List.mem_map.mp member
  obtain ⟨use, isUse, defines⟩ := fits.exists_use isMethod
  have different : function ≠ method.statement := by
    intro same
    obtain ⟨_, _, _, _, assignment, -, -, -, -, -, -, shape, -⟩ := defines
    rw [← same, fits.shape] at shape
    cases shape
  have before := fits.collected.precedes use isUse
  rw [linked.precedes_iff_ahead held defines.parent? different Tree.isWithin_self
    (defines.isWithin linked).1, linked.ahead_iff different] at before
  obtain ⟨front, children⟩ := Node.exists_children_eq isList
  have distinct := linked.nodup_children list
  rw [show (p.tree.node list).children = _ from children] at before distinct
  exact (Tree.pair_sublist_of_append distinct isListed before).subset (by simp)

theorem isIdentifier_use (member : use ∈ (p.binding binding).references) :
    (p.node use).isIdentifier = true := by
  have belongs := steady.sound.bindingOf?_of_reference fits.belongs member
  obtain ⟨d, means, -⟩ := steady.sound.exists_of_bindingOf? belongs
  exact steady.sound.isIdentifier_of_meaning? means

theorem confines (member : method ∈ plan.methods) : p.tree.Confines p.root method.statement := by
  obtain ⟨use, isUse, defines⟩ := fits.exists_use member
  have free : p.Free method.statement := .of_isPlain steady (by
    obtain ⟨_, _, _, _, _, -, -, -, -, -, -, shape, -⟩ := defines
    rw [shape]
    rfl)
  refine (defines.isSealed (fits.isIdentifier_use steady isUse)).confines steady.linked steady.isTop
    free.notBinding fun id held => ?_
  have isDeclarator := steady.wellBound.declarator held
  rw [show (p.tree.node method.statement).isDeclarator = false from free.notDeclaring]
    at isDeclarator
  cases isDeclarator

theorem eq_target_or (declared : d ∈ p.lexicon.declared)
    (within : p.tree.isWithin d.identifier function = true) :
    p.tree.isWithin d.owner function = true ∨ d.identifier = target := by
  have linked := steady.linked
  have free : p.Free function := .of_isPlain steady (by rw [fits.shape]; rfl)
  obtain ⟨id, -, member⟩ := (linked.mem_declared steady.isTop).mp declared
  have inside : p.tree.isWithin id function = true := by
    by_contra outside
    rcases linked.binds_or_declarator member within (Bool.eq_false_iff.mpr outside) with
      binds | held
    · exact free.notBinding binds
    · have isDeclarator := steady.wellBound.declarator held
      rw [show (p.tree.node function).isDeclarator = false from free.notDeclaring] at isDeclarator
      cases isDeclarator
  refine (linked.isWithin_owner_or_name fits.shape member inside).imp_right fun declares => ?_
  obtain ⟨_, _, named⟩ := declares
  rw [show p.tree.node function = _ from fits.shape] at named
  simpa [Node.part, fits.named] using named

theorem isWithin_target : p.tree.isWithin target function = true := by
  refine steady.linked.isWithin_of_parent (steady.linked.mem_children.mp ?_)
  rw [show p.tree.node function = _ from fits.shape]
  simp [Node.children, fits.named]

theorem isLeft_or_eq (declared : d ∈ p.lexicon.declared)
    (isLeft : p.IsLeft (plan.methods.map Method.statement) function d.owner) :
    p.IsLeft (plan.methods.map Method.statement) function d.identifier ∨ d.identifier = target := by
  have attached := (steady.linked.scopes_owner steady.isTop declared).1
  cases within : p.tree.isWithin d.identifier function with
  | true =>
    refine (fits.eq_target_or steady declared within).imp_left fun inside => ?_
    rw [isLeft.apart] at inside
    cases inside
  | false =>
    refine .inl ⟨attached, ?_, within⟩
    rintro ⟨_, member, below⟩
    obtain ⟨method, isMethod, rfl⟩ := List.mem_map.mp member
    exact isLeft.outside ⟨_, member, fits.confines steady isMethod d declared below⟩

theorem identifier_eq : (p.binding binding).identifier = target := by
  by_contra other
  have member := (steady.sound.mem_references_iff fits.belongs fits.unwritten).mpr ⟨fits.belongs,
    Ne.symm other⟩
  have outside := (Tree.not_isWithin_of_precedes (fits.collected.precedes target member)).1
  rw [fits.isWithin_target steady] at outside
  cases outside

theorem mem_references_iff :
    x ∈ (p.binding binding).references ↔ p.bindingOf? x = some binding ∧ x ≠ target := by
  rw [steady.sound.mem_references_iff fits.belongs fits.unwritten, fits.identifier_eq steady]

theorem mem_references (own : (⟨owner, plan.name, .function, function, target⟩ : Declaration) ∈
    p.lexicon.declared) (bound : p.lexicon.binder? owner plan.name = some d)
    (means : p.lexicon.meaning? x = some d) (notTarget : x ≠ target) :
    x ∈ (p.binding binding).references := by
  have sound := steady.sound
  have meansTarget : p.lexicon.meaning? target = some d :=
    (sound.regular.meaning?_of_declared own).trans bound
  refine (fits.mem_references_iff steady).mpr ⟨?_, notTarget⟩
  rw [sound.bindingOf?_eq, means, ← meansTarget, ← sound.bindingOf?_eq, fits.belongs]

/-- Whatever defines a method of the function in the list is among the methods. -/
theorem mem_methods (belongs : p.bindingOf? use = some binding)
    (defines : Defines p list use method) :
    method ∈ plan.methods := by
  have linked := steady.linked
  obtain ⟨holder, prototype, _, _, _, shape, -⟩ := id defines
  have held : p.tree.parent? use = some holder := by
    rw [← linked.mem_children, show p.tree.node holder = _ from shape]
    exact List.mem_cons_self ..
  have notTarget : use ≠ target := by
    rintro rfl
    have named : p.tree.parent? use = some function := by
      rw [← linked.mem_children, show p.tree.node function = _ from fits.shape]
      simp [Node.children, fits.named]
    obtain rfl := Option.some.inj (held.symm.trans named)
    rw [fits.shape] at shape
    cases shape
  rcases fits.exists_method_or ((fits.mem_references_iff steady).mpr ⟨belongs, notTarget⟩) with
    ⟨other, isMethod, further⟩ | isCallee
  · have same :=
      ((method?_eq_some_iff linked).mpr defines).symm.trans
        ((method?_eq_some_iff linked).mpr further)
    exact Option.some.inj same ▸ isMethod
  · obtain ⟨parent, arguments, isNew⟩ := (isNewCallee_iff linked).mp isCallee
    have heldToo : p.tree.parent? use = some parent := by
      rw [← linked.mem_children, show p.tree.node parent = _ from isNew]
      exact List.mem_cons_self ..
    obtain rfl := Option.some.inj (held.symm.trans heldToo)
    rw [shape] at isNew
    cases isNew

include attached

theorem exists_owner : ∃ owner d, (p.tree.scopesFrom list).head? = some owner ∧
    p.lexicon.binder? owner plan.name = some d ∧
      (⟨owner, plan.name, .function, function, target⟩ : Declaration) ∈ p.lexicon.declared := by
  have linked := steady.linked
  have listAttached := linked.isWithin_root_of_above steady.isTop attached
    (linked.isWithin_of_parent fits.held)
  have isOpen : p.tree.opens p.root = true := by
    obtain ⟨body, shape⟩ := steady.sound.isProgram
    rw [Tree.opens, Tree.scopeKind?, show p.tree.node p.root = _ from shape]
    rfl
  obtain ⟨owner, nearest, -⟩ := linked.exists_head?_scopesFrom listAttached isOpen
  have declared : (⟨owner, plan.name, .function, function, target⟩ : Declaration) ∈
      p.lexicon.declared := by
    refine (linked.mem_declared steady.isTop).mpr ⟨function, attached, ?_⟩
    rw [Tree.declarationsAt, show p.tree.node function = _ from fits.shape]
    refine List.mem_append_left _ ?_
    rw [if_pos fits.isDeclaration, linked.scopesAround_of_parent fits.held]
    exact Tree.mem_declaredNames.mpr ⟨nearest, rfl, rfl, by simp [Node.part, fits.named],
      fits.spelled⟩
  obtain ⟨d, bound⟩ := Lexicon.exists_binder? declared
  exact ⟨owner, d, nearest, bound, declared⟩

end Fits

/-- A function has become a class. The statements of the methods have left, and the class stands in
the place of the function. -/
structure Reforms (p : Program) (function : NodeId) (plan : Plan) (list : NodeId) (q : Program)
    (class_ label first constructor : NodeId) (params : List NodeId) (body : NodeId)
    (members : List NodeId) : Prop where
  regrouped : ∃ r, p.Regrouped r (plan.methods.map Method.statement) function class_ q
  built : Built p.tree q.tree plan.function plan.name plan.methods class_ label first constructor
    params body members
  outside : ¬p.Inside (plan.methods.map Method.statement) function

namespace Reforms

variable {owner x : NodeId} {d e : Declaration}
  (reforms : Reforms p function plan list q class_ label first constructor params body members)
  (fits : Fits p function plan target binding list) (steady : p.Steady)
  (attached : p.tree.isWithin function p.root = true)

include reforms

theorem steadyNow : q.Steady := reforms.regrouped.choose_spec.steady

include fits steady

theorem agrees : p.tree.Agrees q.tree (p.IsLeft (plan.methods.map Method.statement) function) := by
  obtain ⟨r, regrouped⟩ := reforms.regrouped
  obtain ⟨statements, isList, inside⟩ := fits.exists_statements steady
  exact regrouped.agrees steady isList inside fits.held

theorem meaning?_of_isLeft (own : (⟨owner, plan.name, .function, function, target⟩ : Declaration) ∈
    p.lexicon.declared) (bound : p.lexicon.binder? owner plan.name = some d)
    (isLeft : p.IsLeft (plan.methods.map Method.statement) function x)
    (means : q.lexicon.meaning? x = some e) (isOwner : e.owner = owner)
    (named : e.name = plan.name) :
    p.lexicon.meaning? x = some d := by
  have linked := steady.linked
  have after := reforms.steadyNow
  have linkedNow := after.linked
  have agrees := reforms.agrees fits steady
  obtain ⟨r, regrouped⟩ := reforms.regrouped
  have same {d : Declaration}
      (isLeft : p.IsLeft (plan.methods.map Method.statement) function d.identifier) :
      d ∈ q.lexicon.declared ↔ d ∈ p.lexicon.declared :=
    agrees.mem_declared_iff linked linkedNow steady.isTop after.isTop
      (fun isLeft => isLeft.attached) (fun isLeft => (regrouped.kept isLeft).1) isLeft
  cases isUse : (p.tree.role x).isUse with
  | false =>
    have notUse :
        (q.tree.role x).isUse = false := by rw [agrees.role linked linkedNow isLeft, isUse]
    obtain ⟨again, declared, rfl, isOwnerToo, isNameToo⟩ :=
      Tree.exists_declared_of_meaning? notUse means
    rw [steady.sound.regular.meaning?_of_declared ((same isLeft).mp declared), isOwnerToo,
      isNameToo, isOwner, named, bound]
  | true =>
    have isUseNow :
        (q.tree.role x).isUse = true := by rw [agrees.role linked linkedNow isLeft, isUse]
    obtain ⟨spelledNow, -⟩ := after.sound.of_meaning? means
    have spelled : (p.tree.node x).identifier? = some e.name := by rwa [← agrees.identifier? isLeft]
    rw [linkedNow.meaning?_of_isUse (regrouped.kept isLeft).1 spelledNow isUseNow,
      agrees.beyond linked linkedNow isLeft] at means
    obtain ⟨inSight, -, least⟩ :=
      Tree.nearest_of_look? (agrees.beyond linked linkedNow isLeft ▸ linkedNow.pairwise_beyond x)
        means
    rw [isOwner] at inSight least
    obtain ⟨found, declared, isFound, isName, foundInSight, foundWithin, isBound⟩ :=
      linked.exists_look? inSight (named ▸ bound)
    rw [linked.meaning?_of_isUse isLeft.attached spelled isUse, isFound, Option.some.injEq]
    refine isBound ?_
    have ownerLeft := Tree.Alike.shared_of_mem_ancestors linked agrees.toAlike isLeft
      (linked.mem_beyond foundInSight).1
    rcases fits.isLeft_or_eq steady declared ownerLeft with identifierLeft | isTarget
    · have around :=
        least found.owner foundInSight ⟨found, (same identifierLeft).mpr declared, rfl, isName⟩
      rw [agrees.isWithin linked linkedNow
        (Tree.Alike.shared_of_mem_ancestors linked agrees.toAlike isLeft
          (linked.mem_beyond inSight).1)] at around
      exact linked.isWithin_antisymm foundWithin around
    · rw [steady.sound.regular.eq_of_identifier declared own isTarget]

include attached

theorem isLeft_list : p.IsLeft (plan.methods.map Method.statement) function list :=
  Regrouped.isLeft_list steady fits.held attached reforms.outside

/-- The class declares its name where the function did. -/
theorem mem_declared (nearest : (p.tree.scopesFrom list).head? = some owner) :
    (⟨owner, plan.name, .class_, class_, label⟩ : Declaration) ∈ q.lexicon.declared := by
  have after := reforms.steadyNow
  have linkedNow := after.linked
  have isLeft := reforms.isLeft_list fits steady attached
  obtain ⟨r, regrouped⟩ := reforms.regrouped
  have held : q.tree.parent? class_ = some list := regrouped.held.trans fits.held
  have shape := reforms.built.shape.node
  have closed : q.tree.opens class_ = false := by
    rw [Tree.opens, Tree.scopeKind?, shape]
    rfl
  refine (linkedNow.mem_declared after.isTop).mpr ⟨class_,
    linkedNow.isWithin_trans (linkedNow.isWithin_of_parent held) (regrouped.kept isLeft).1, ?_⟩
  rw [Tree.declarationsAt, shape]
  refine Tree.mem_declaredNames.mpr ⟨?_, rfl, rfl, by simp [Node.part],
    by rw [reforms.built.label.node]; rfl⟩
  rw [Tree.scopesFrom_of_closed closed, linkedNow.scopesAround_of_parent held,
    (reforms.agrees fits steady).scopesFrom steady.linked linkedNow isLeft, nearest]

omit steady fits attached in
theorem isWithin_value {kind : MethodKind} {name : String} {value member : NodeId}
    (isMember : IsMember p.tree q.tree kind name value member)
    (means : q.lexicon.meaning? x = some e) (within : q.tree.isWithin x member = true) :
    q.tree.isWithin x value = true := by
  have after := reforms.steadyNow
  have linkedNow := after.linked
  obtain ⟨key, isMember, isKey⟩ := isMember
  have isIdentifier := after.sound.isIdentifier_of_meaning? means
  obtain ⟨child, isChild, below⟩ := linkedNow.exists_child within fun same => by
    rw [same, Program.node, isMember.node] at isIdentifier
    cases isIdentifier
  rw [isMember.node] at isChild
  rcases List.mem_pair.mp isChild with rfl | rfl
  · -- The key of a member is no name of a variable.
    have isLeaf := linkedNow.eq_of_isWithin_leaf (by rw [isKey.node]; rfl) below
    have isLabel : x ∈ (q.node member).part .label := by
      rw [isLeaf, Program.node, isMember.node]
      exact List.mem_singleton_self _
    have noBinding := after.sound.bindingOf?_of_label isLabel
    rw [after.sound.bindingOf?_eq_none_iff, means] at noBinding
    cases noBinding
  · exact below

omit steady attached in
theorem restated_constructor :
    p.tree.Restated q.tree plan.function function constructor params body where
  shape := fits.shape
  isUnnamed := .inl fits.isDeclaration
  label name isName := by
    rw [fits.named, Option.some.injEq] at isName
    exact isName ▸ Option.isSome_of_eq_some fits.spelled
  shapeAfter := by
    rw [reforms.built.constructor.node, fits.notGenerator, fits.notAsync]
  params := reforms.built.params.imp fun _ _ isCopy => by
    obtain ⟨g, same, reproduced⟩ := isCopy
    exact ⟨g, same, reproduced.toTransplanted⟩
  body := by
    obtain ⟨g, same, reproduced⟩ := reforms.built.body
    exact ⟨g, same, reproduced.toTransplanted⟩

end Reforms

theorem Defines.exists_restated {value : NodeId} {after : Tree}
    (defines : Defines p list use method) (linked : p.tree.Linked)
    (isCopy : IsReproduced p.tree after method.function value) :
    ∃ g params body, p.tree.Restated after g method.function value params body := by
  obtain ⟨g, shape, kind, unnamed, notGenerator, notAsync⟩ := defines.exists_function
  obtain ⟨f, rfl, reproduced⟩ := isCopy
  have moved := reproduced.toTransplanted
  have below {child : NodeId} (isChild : child ∈ g.params ++ [g.body]) :
      p.tree.Transplanted after child f := by
    refine moved.below linked (linked.isWithin_of_parent (linked.mem_children.mp ?_))
    rw [show p.tree.node method.function = _ from shape, Node.children, List.append_assoc]
    exact List.mem_append_right _ isChild
  refine ⟨g, g.params.map f, f g.body, shape, .inr unnamed, fun name isName => ?_, ?_, ?_, f, rfl,
    below (by simp)⟩
  · rw [unnamed] at isName
    cases isName
  · rw [moved.node Tree.isWithin_self, show p.tree.node method.function = _ from shape]
    simp [Node.map, Node.traverse, kind, unnamed]
  · exact List.forall₂_map_right_iff.mpr (List.forall₂_same.mpr fun param member =>
      ⟨f, rfl, below (List.mem_append_left _ member)⟩)

theorem Defines.isWithin_list {place : NodeId} (defines : Defines p list use method)
    (linked : p.tree.Linked) (within : p.tree.isWithin method.function place = true)
    (different : place ≠ method.function) (opens : p.tree.opens place = true) :
    p.tree.isWithin list place = true := by
  obtain ⟨holder, prototype, target, key, assignment, -, -, -, -, assignmentShape, -, shape,
    held⟩ := defines
  have closed {id : NodeId} (isInert : (p.node id).isInert = true) : place ≠ id := by
    rintro rfl
    rw [Program.node, Tree.isInert_of_opens opens] at isInert
    cases isInert
  have functionHeld : p.tree.parent? method.function = some assignment := by
    rw [← linked.mem_children, show p.tree.node assignment = _ from assignmentShape]
    simp [Node.children]
  have assignmentHeld : p.tree.parent? assignment = some method.statement := by
    rw [← linked.mem_children, show p.tree.node method.statement = _ from shape]
    simp [Node.children]
  rwa [linked.isWithin_parent functionHeld different.symm,
    linked.isWithin_parent assignmentHeld (closed (by rw [assignmentShape]; rfl)).symm,
    linked.isWithin_parent held (closed (by rw [shape]; rfl)).symm] at within

namespace Reforms

variable {owner x : NodeId} {d e : Declaration}
  (reforms : Reforms p function plan list q class_ label first constructor params body members)
  (fits : Fits p function plan target binding list) (steady : p.Steady)
  (attached : p.tree.isWithin function p.root = true)
  (nearest : (p.tree.scopesFrom list).head? = some owner)
  (own : (⟨owner, plan.name, .function, function, target⟩ : Declaration) ∈ p.lexicon.declared)
  (bound : p.lexicon.binder? owner plan.name = some d) (means : q.lexicon.meaning? x = some e)
  (isOwner : e.owner = owner) (named : e.name = plan.name)

include reforms fits steady attached nearest

/-- The scope that the class is declared in is not part of the class. -/
theorem not_isWithin_new {value : NodeId} (isNew : ¬p.tree.Allocated value)
    (below : q.tree.isWithin value class_ = true) :
    q.tree.isWithin owner value = false := by
  have linkedNow := reforms.steadyNow.linked
  have isLeft := reforms.isLeft_list fits steady attached
  have agrees := reforms.agrees fits steady
  obtain ⟨r, regrouped⟩ := reforms.regrouped
  have around := (Tree.mem_scopesFrom.mp (List.mem_of_mem_head? nearest)).1
  rw [← agrees.isWithin steady.linked linkedNow isLeft] at around
  have held : q.tree.parent? class_ = some list := regrouped.held.trans fits.held
  rw [Bool.eq_false_iff]
  intro within
  have same := linkedNow.isWithin_antisymm within
    (linkedNow.isWithin_trans below
      (linkedNow.isWithin_trans (linkedNow.isWithin_of_parent held) around))
  have ownerAllocated : p.tree.Allocated owner := by
    refine steady.linked.allocated_of_isWithin ?_ steady.isTop.allocated
    exact steady.linked.isWithin_root_of_above steady.isTop isLeft.attached
      (Tree.mem_scopesFrom.mp (List.mem_of_mem_head? nearest)).1
  exact isNew (same ▸ ownerAllocated)

omit nearest in
theorem isWithin_class_root : q.tree.isWithin class_ q.root = true := by
  have linkedNow := reforms.steadyNow.linked
  have isLeft := reforms.isLeft_list fits steady attached
  obtain ⟨r, regrouped⟩ := reforms.regrouped
  have held : q.tree.parent? class_ = some list := regrouped.held.trans fits.held
  exact linkedNow.isWithin_trans (linkedNow.isWithin_of_parent held) (regrouped.kept isLeft).1

omit fits steady attached nearest in
theorem isWithin_class {kind : MethodKind} {name : String} {value member : NodeId}
    (isListed : member ∈ first :: members)
    (isMember : IsMember p.tree q.tree kind name value member) :
    q.tree.isWithin value class_ = true := by
  have linkedNow := reforms.steadyNow.linked
  obtain ⟨key, isMember, -⟩ := isMember
  have held : q.tree.parent? member = some class_ := by
    rw [← linkedNow.mem_children, reforms.built.shape.node]
    exact List.mem_append_right _ isListed
  have valueHeld : q.tree.parent? value = some member := by
    rw [← linkedNow.mem_children, isMember.node]
    simp [Node.children]
  exact linkedNow.isWithin_trans (linkedNow.isWithin_of_parent valueHeld)
    (linkedNow.isWithin_of_parent held)

include own bound means isOwner named

theorem exists_reference {g : Function NodeId} {outer outer' body' : NodeId} {params' : List NodeId}
    (restated : p.tree.Restated q.tree g outer outer' params' body')
    (isNew : ¬p.tree.Allocated outer') (below : q.tree.isWithin outer' class_ = true)
    (inList : p.tree.isWithin outer list = true)
    (around : ∀ place, p.tree.isWithin outer place = true → place ≠ outer →
      p.tree.opens place = true →
      p.tree.isWithin list place = true) (inside : q.tree.isWithin x outer' = true) :
    ∃ root f id, f outer = outer' ∧ p.tree.Hosted q.tree outer root f ∧
      p.tree.isWithin id root = true ∧ f id = x ∧
        id ∈ (p.binding binding).references := by
  have linked := steady.linked
  obtain ⟨listInside, isOpen⟩ := Tree.mem_scopesFrom.mp (List.mem_of_mem_head? nearest)
  have isLeft := reforms.isLeft_list fits steady attached
  have attachedAfter := reforms.steadyNow.linked.isWithin_trans below
    (reforms.isWithin_class_root fits steady attached)
  obtain ⟨root, f, id, isOuter, hosted, idInside, isCopy, isUse, meansBefore⟩ :=
    exists_meant restated steady reforms.steadyNow (linked.isWithin_trans inList isLeft.attached)
      attachedAfter bound isOpen (linked.isWithin_trans inList listInside)
      (fun place within different opens => linked.isWithin_of_head?_scopesFrom nearest
        (around place within different opens) opens)
      means named (isOwner ▸ reforms.not_isWithin_new fits steady attached nearest isNew below)
      inside
  refine ⟨root, f, id, isOuter, hosted, idInside, isCopy, fits.mem_references steady own bound
    meansBefore ?_⟩
  rintro rfl
  have isName : id ∈ (p.tree.node function).part .name := by
    rw [show p.tree.node function = _ from fits.shape]
    exact Option.mem_toList.mpr fits.named
  have binds : p.tree.Binds id := .place (by simp) isName
  rw [linked.isUse_role_of_binds binds] at isUse
  cases isUse

theorem not_isWithin_first : q.tree.isWithin x first = false := by
  have linked := steady.linked
  rw [Bool.eq_false_iff]
  intro within
  obtain ⟨root, f, id, -, hosted, idInside, -, isReference⟩ := reforms.exists_reference fits steady
    attached nearest own bound means isOwner named (reforms.restated_constructor fits)
    reforms.built.constructor.new
    (reforms.isWithin_class (List.mem_cons_self ..) reforms.built.first)
    (linked.isWithin_of_parent fits.held)
    (fun place around different
      _ => by rwa [linked.isWithin_parent fits.held different.symm] at around)
    (reforms.isWithin_value reforms.built.first means within)
  have outside := (Tree.not_isWithin_of_precedes (fits.collected.precedes id isReference)).1
  rw [hosted.isWithin_outer linked idInside] at outside
  cases outside

theorem exists_new_of_member {member : NodeId} (isListed : member ∈ members)
    (within : q.tree.isWithin x member = true) :
    ∃ holder arguments, q.node holder = .new x arguments := by
  have linked := steady.linked
  have linkedNow := reforms.steadyNow.linked
  obtain ⟨method, isMethod, value, isMember, isCopy⟩ := exists_of_forall₂ reforms.built.members.flip
    isListed
  obtain ⟨use, isUse, defines⟩ := fits.exists_use isMethod
  obtain ⟨g, params', body', restated⟩ := defines.exists_restated linked isCopy
  have functionInside := (defines.isWithin linked).2
  have isNew : ¬p.tree.Allocated value := by
    obtain ⟨f, rfl, reproduced⟩ := isCopy
    exact (reproduced.new Tree.isWithin_self).1
  obtain ⟨root, f, id, isOuter, hosted, idInside, rfl, isReference⟩ := reforms.exists_reference fits
    steady attached nearest own bound means isOwner named restated isNew
    (reforms.isWithin_class (List.mem_cons_of_mem _ isListed) isMember)
    (linked.isWithin_trans functionInside (linked.isWithin_of_parent defines.parent?))
    (fun place around different opens => defines.isWithin_list linked around different opens)
    (reforms.isWithin_value isMember means within)
  have idWithin := hosted.isWithin_outer linked idInside
  rcases fits.exists_method_or isReference with ⟨method', -, defines'⟩ | isCallee
  · -- A use that defines a method is in no method.
    have same := linked.eq_of_isWithin_children defines'.parent? defines.parent?
      (defines'.isWithin linked).1 (linked.isWithin_trans idWithin functionInside)
    obtain ⟨assignment, left, -, leftHeld, functionHeld, different, useInside⟩ :=
      defines.exists_assignment linked
    rw [← defines.eq_of_statement_eq defines' same] at useInside
    exact absurd (linked.eq_of_isWithin_children leftHeld functionHeld useInside idWithin) different
  · obtain ⟨holder, arguments, shape⟩ := (isNewCallee_iff linked).mp isCallee
    have held : p.tree.parent? id = some holder := by
      rw [← linked.mem_children, show p.tree.node holder = _ from shape]
      exact List.mem_cons_self ..
    obtain ⟨parent, isParent, -, place⟩ := hosted.exists_parent linked linkedNow idInside
    rw [held, Option.some.injEq] at isParent
    subst isParent
    have holderInside := place.resolve_right fun isFunction => by
      rw [isFunction, Program.node, restated.shape] at shape
      cases shape
    refine ⟨f holder, arguments.map f, ?_⟩
    rw [Program.node, hosted.node holderInside, show p.tree.node holder = _ from shape]
    simp [Node.map, Node.traverse]

theorem exists_new_of_isLeft (isLeft : p.IsLeft (plan.methods.map Method.statement) function x) :
    (∃ holder arguments, q.node holder = .new x arguments) ∧ q.tree.precedes class_ x = true := by
  have linked := steady.linked
  have meansBefore := reforms.meaning?_of_isLeft fits steady own bound isLeft means isOwner named
  have isReference := fits.mem_references steady own bound meansBefore fun isTarget => by
    have apart := isLeft.apart
    rw [isTarget, fits.isWithin_target steady] at apart
    cases apart
  obtain ⟨r, regrouped⟩ := reforms.regrouped
  obtain ⟨statements, isList, inside⟩ := fits.exists_statements steady
  refine ⟨?_, regrouped.precedes steady isList inside fits.held attached reforms.outside
    reforms.built.shape.new isLeft (fits.collected.precedes x isReference)⟩
  rcases fits.exists_method_or isReference with ⟨method, isMethod, defines⟩ | isCallee
  · exact absurd ⟨_, List.mem_map_of_mem isMethod, (defines.isWithin linked).1⟩ isLeft.outside
  · obtain ⟨holder, arguments, shape⟩ := (isNewCallee_iff linked).mp isCallee
    have other : holder ≠ list := by
      rintro rfl
      rw [shape] at isList
      cases isList
    have allocated : p.tree.Allocated holder := Tree.allocated_of_node_ne fun isEmpty => by
      rw [Program.node, isEmpty] at shape
      cases shape
    exact ⟨holder, arguments,
      (regrouped.node_eq steady isList inside fits.held allocated other).trans shape⟩

theorem exists_new (notLabel : x ≠ label) : ∃ holder arguments, q.node holder = .new x arguments ∧
    ((∃ member ∈ members, q.tree.isWithin x member = true) ∨ q.tree.precedes class_ x = true) := by
  have after := reforms.steadyNow
  have linkedNow := after.linked
  have attachedNow := (isWithin_root_of_meaning? after.sound.rooted means).1
  by_cases isOld : p.tree.Allocated x
  · have isLeft := reforms.regrouped.choose_spec.isLeft isOld attachedNow
    obtain ⟨⟨holder, arguments, shape⟩, before⟩ := reforms.exists_new_of_isLeft fits steady attached
      nearest own bound means isOwner named isLeft
    exact ⟨holder, arguments, shape, .inr before⟩
  · obtain ⟨r, regrouped⟩ := reforms.regrouped
    obtain ⟨statements, isList, inside⟩ := fits.exists_statements steady
    have within := regrouped.isWithin_piece steady isList inside fits.held isOld attachedNow
    obtain ⟨child, isChild, below⟩ := linkedNow.exists_child within fun isClass => by
      have isIdentifier := after.sound.isIdentifier_of_meaning? means
      rw [isClass, Program.node, reforms.built.shape.node] at isIdentifier
      cases isIdentifier
    rw [reforms.built.shape.node] at isChild
    rcases List.mem_cons.mp isChild with rfl | isListed
    · exact absurd (linkedNow.eq_of_isWithin_leaf (by rw [reforms.built.label.node]; rfl) below)
        notLabel
    rcases List.mem_cons.mp isListed with rfl | isListed
    · rw [reforms.not_isWithin_first fits steady attached nearest own bound means isOwner
        named] at below
      cases below
    · obtain ⟨holder, arguments, shape⟩ := reforms.exists_new_of_member fits steady attached nearest
        own bound means isOwner named isListed below
      exact ⟨holder, arguments, shape, .inl ⟨child, isListed, below⟩⟩

end Reforms

theorem exists_reforms {w v : Workspace} (steady : w.program.Steady)
    (attached : w.program.isAttached function = true) (stepped : step function w = .ok true v) :
    ∃ plan target binding list class_ label first constructor params body members,
      Fits w.program function plan target binding list ∧
        Reforms w.program function plan list v.program class_ label first constructor params
          body members := by
  obtain ⟨plan, between, placed, -, planned, clears, done⟩ :=
    (exists_of_step stepped).resolve_left (by simp)
  have linked := steady.linked
  rw [isAttached_eq linked steady.isTop.top] at attached
  obtain ⟨-, target, binding, list, fits⟩ := (plan?_eq_some_iff linked).mp planned
  have shape := fits.shape
  obtain ⟨apart, aside⟩ := fits.apart steady attached
  have start := Tree.Building.start linked steady.wellBound steady.nonempty
  have patterns : ∀ param ∈ plan.function.params, w.program.tree.IsPattern param :=
    fun _ member => steady.isPattern_of_mem_params shape member
  have building := building_classOf start plan.function patterns plan.name plan.methods
  have isAllocated {parent child : NodeId} (held : w.program.tree.parent? child = some parent) :
      w.program.tree.Allocated child := Tree.allocated_of_parent? held
  obtain ⟨label, first, constructor, params, body, members, built⟩ :=
    exists_built plan.name plan.methods linked start (f := plan.function)
      (fun root isPart => isAllocated (linked.mem_children.mp (by
        rw [show w.program.tree.node function = _ from shape, Node.children, List.append_assoc]
        exact List.mem_append_right _ isPart))) patterns
      fun method isMethod => by
        obtain ⟨use, -, defines⟩ := fits.exists_use isMethod
        obtain ⟨_, _, -, -, held, -⟩ := defines.exists_assignment linked
        exact isAllocated held
  have thinned := clears.thinned steady apart building
  have loose := building.loose _ (List.mem_singleton_self _)
  have outside : ¬w.program.Inside (plan.methods.map Method.statement) function := by
    rintro ⟨statement, member, within⟩
    rw [(aside statement member).1] at within
    cases within
  have regrouped := thinned.replace steady (.of_isPlain steady (by rw [shape]; rfl)) attached
    outside loose.new (Nat.lt_of_lt_of_le loose.allocated thinned.size) (.inr fun inner => by
      rw [thinned.built loose.allocated loose.new, built.shape.node]
      simp) done
  have retains : w.program.tree.Retains _ v.program.tree := fun id isNew allocated =>
    ⟨Nat.lt_of_lt_of_le allocated (thinned.size.trans regrouped.size),
      (regrouped.built isNew).trans (thinned.built allocated isNew)⟩
  exact ⟨plan, target, binding, list, _, label, first, constructor, params, body, members, fits,
    ⟨between, regrouped⟩, built.keep retains, outside⟩

theorem steady_of_step {w v : Workspace} {changed : Bool} (steady : w.program.Steady)
    (attached : w.program.isAttached function = true) (stepped : step function w = .ok changed v) :
    v.program.Steady := by
  cases changed with
  | false =>
    rcases exists_of_step stepped with ⟨-, rfl⟩ | ⟨_, _, _, changed, -⟩
    · exact steady
    · cases changed
  | true =>
    obtain ⟨_, _, _, _, _, _, _, _, _, _, _, -, reforms⟩ := exists_reforms steady attached stepped
    exact reforms.steadyNow

/-- In a program whose names were put right before, the name of the class is that of a variable. All
else that denotes it is the callee of a `new` expression, in a method or behind the class. -/
theorem Reforms.exists_binding
    (reforms : Reforms p function plan list q class_ label first constructor params body members)
    (fits : Fits p function plan target binding list) (steady : p.Steady)
    (attached : p.tree.isWithin function p.root = true) :
    ∃ denoted, q.bindingOf? label = some denoted ∧ ∀ x, q.bindingOf? x = some denoted → x ≠ label →
      ∃ holder arguments, q.node holder = .new x arguments ∧
        ((∃ member ∈ members, q.tree.isWithin x member = true) ∨
          q.tree.precedes class_ x = true) := by
  have after := reforms.steadyNow.sound
  obtain ⟨owner, d, nearest, bound, own⟩ := fits.exists_owner steady attached
  have declared := reforms.mem_declared fits steady attached nearest
  obtain ⟨e, boundAfter⟩ := Lexicon.exists_binder? declared
  obtain ⟨-, isOwner, named⟩ := Lexicon.binder?_some boundAfter
  have means : q.lexicon.meaning? label = some e :=
    (after.regular.meaning?_of_declared declared).trans boundAfter
  obtain ⟨denoted, belongs, -⟩ := after.exists_of_meaning? means
  refine ⟨denoted, belongs, fun x belongsToo notLabel => ?_⟩
  have meansToo : q.lexicon.meaning? x = some e :=
    (after.meaning?_eq (belongsToo.trans belongs.symm)).trans means
  exact reforms.exists_new fits steady attached nearest own bound meansToo isOwner named notLabel

/-- A function declaration has become a class. There is a member for each statement that defines a
method, and the members are in the order of the statements if the table has the uses in this order.
The statements have left the list, and the class stands in the place of the function. Nothing else
has changed, and all that denotes the class besides its own name is the callee of a `new`
expression, in a method or behind the class. -/
structure Rebuilds (p : Program) (function : NodeId) (plan : Plan) (binding : BindingId)
    (list : NodeId) (q : Program) (class_ label : NodeId) (members : List NodeId) : Prop where
  complete : ∀ {use method}, p.bindingOf? use = some binding → Defines p list use method →
    method ∈ plan.methods
  ordered : (plan.methods.map Method.statement).Pairwise (fun a b => p.tree.precedes a b = true) ↔
    (definitions p (p.binding binding).references).Pairwise fun a b => p.tree.precedes a b = true
  held : q.tree.parent? class_ = some list
  children : (q.node list).children =
    ((p.node list).children.filter (· ∉ plan.methods.map Method.statement)).flatMap (swap function
      (some class_))
  node : ∀ {id}, p.tree.Allocated id → id ≠ list → q.node id = p.node id
  denoted :
    ∃ denoted, q.bindingOf? label = some denoted ∧ ∀ x, q.bindingOf? x = some denoted → x ≠ label →
    ∃ holder arguments, q.node holder = .new x arguments ∧
      ((∃ member ∈ members, q.tree.isWithin x member = true) ∨ q.tree.precedes class_ x = true)

theorem Reforms.rebuilds (reforms : Reforms p function plan list q class_ label first constructor
    params body members) (fits : Fits p function plan target binding list) (steady : p.Steady)
    (attached : p.tree.isWithin function p.root = true) :
    Rebuilds p function plan binding list q class_ label members := by
  obtain ⟨statements, isList, inside⟩ := fits.exists_statements steady
  obtain ⟨r, regrouped⟩ := reforms.regrouped
  exact ⟨fits.mem_methods steady, pairwise_precedes_iff steady.linked fits.collected.defines,
    regrouped.held.trans fits.held, regrouped.children_list isList inside
      (steady.linked.allocated_parent fits.held),
    regrouped.node_eq steady isList inside fits.held, reforms.exists_binding fits steady attached⟩

end ClassForm

theorem Program.Steady.rebuilds_class {p : Program} {c : Context} {function : NodeId}
    {found left last : Workspace} (steady : p.Steady)
    (visits : SimplifyM.Visits (fun p id => (p.node id).isFunction) ClassForm.step ⟨p, c⟩ function
      found left last) :
    ∃ plan target binding list class_ label first constructor params body members,
      ClassForm.Fits found.program function plan target binding list ∧
      ClassForm.Built found.program.tree left.program.tree plan.function plan.name plan.methods
        class_ label first constructor params body members ∧
      ClassForm.Rebuilds found.program function plan binding list left.program class_
        label members := by
  have here : found.program.Steady :=
    visits.invariant Program.Steady steady fun _ _ _ _ steady attached _ stepped =>
      ClassForm.steady_of_step steady attached stepped
  obtain ⟨plan, target, binding, list, class_, label, first, constructor, params, body, members,
    fits, reforms⟩ :=
      ClassForm.exists_reforms here visits.attached visits.stepped
  have attached := visits.attached
  rw [isAttached_eq here.linked here.isTop.top] at attached
  exact ⟨plan, target, binding, list, class_, label, first, constructor, params, body, members,
    fits, reforms.built, reforms.rebuilds fits here attached⟩

end Unravel
