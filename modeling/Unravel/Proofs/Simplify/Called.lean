import Unravel.Proofs.Simplify.Inlined

/-!
Calls of a function by its name (`Program.CallsTo`). Where one of them is expanded, only its
arguments bring calls of the function with them (`Unfolding.exists_argument`), and the calls that
cannot be expanded because a name of the template would mean something else (`Program.Clash`) cannot
be expanded afterwards, neither where they stood (`Unfolding.clash_of_outside`) nor where they have
been copied to (`Unfolding.clash_of_argument`).
-/

namespace Unravel

namespace Tree

variable {t : Tree} {id function expression owner : NodeId} {d : Declaration}

theorem Linked.mem_declarationsAt_of_owner (linked : t.Linked)
    (found : t.singleReturn? function = some expression) (template : t.Sealed expression)
    (parts : ∀ part ∈ [Part.name, .params], ∀ id ∈ (t.node function).part part, t.Sealed id)
    (member : d ∈ t.declarationsAt id) (isOwner : d.owner = function) : id = function := by
  obtain ⟨f, only, shape, block, returned⟩ := of_singleReturn? found
  have apart {piece : NodeId} (isSealed : t.Sealed piece) (within : t.isWithin id piece = true)
      (held : t.isWithin piece function = true) (different : piece ≠ function) : False := by
    have inside := isSealed.isWithin_owner linked member within
    rw [isOwner] at inside
    exact different (linked.isWithin_antisymm held inside)
  have within : t.isWithin id function = true := isOwner ▸ (linked.introduces_of_mem member).owner
  by_contra different
  obtain ⟨child, held, below⟩ := linked.exists_child within different
  have above := linked.mem_children.mp held
  have notFunction : child ≠ function :=
    fun same => linked.parent?_ne_self child (by rw [above, same])
  have holds : child ∈ (t.node function).part .name ∨ child ∈ (t.node function).part .params ∨
      child = f.body := by
    rw [shape] at held ⊢
    simp only [Node.children, List.mem_append, List.mem_cons, List.not_mem_nil] at held
    simp only [Node.part]
    tauto
  rcases holds with named | isParam | rfl
  · exact apart (parts .name (by simp) child named) below (linked.isWithin_of_parent above)
      notFunction
  · exact apart (parts .params (by simp) child isParam) below (linked.isWithin_of_parent above)
      notFunction
  · -- The block and the statement in it declare nothing.
    have blockDeclares : id ≠ f.body := by
      rintro rfl
      simp [declarationsAt, block, Node.tag] at member
    obtain ⟨child, held, below⟩ := linked.exists_child below blockDeclares
    rw [block] at held
    obtain rfl := List.mem_singleton.mp held
    have onlyDeclares : id ≠ child := by
      rintro rfl
      have active := isInert_of_declarationsAt member
      rw [returned] at active
      cases active
    obtain ⟨child, held, below⟩ := linked.exists_child below onlyDeclares
    rw [returned] at held
    obtain rfl := List.mem_singleton.mp held
    have inside := linked.isWithin_of_singleReturn? found
    refine apart template below inside ?_
    rintro rfl
    obtain ⟨body, only, bodyHeld, onlyHeld, lastHeld⟩ := linked.exists_of_singleReturn? found
    have first := linked.isWithin_of_parent bodyHeld
    have second := linked.isWithin_trans (linked.isWithin_of_parent lastHeld)
      (linked.isWithin_of_parent onlyHeld)
    have same := linked.isWithin_antisymm first second
    exact linked.parent?_ne_self body (same ▸ bodyHeld)

theorem Linked.param_of_owner (linked : t.Linked) {other : Declaration} {f : Function NodeId}
    (shape : t.node function = .function f) (named : d ∈ t.declarationsAt function)
    (outside : d.owner ≠ function) (member : other ∈ t.declarationsAt function)
    (isOwner : other.owner = function) :
    other.declaration = function ∧ other.kind = .param := by
  have isDeclaration : f.kind = .declaration := by
    by_contra isExpression
    simp only [declarationsAt, shape, Node.tag, List.mem_append, if_neg isExpression,
      mem_declaredNames] at named
    rcases named with ⟨same, -⟩ | ⟨same, -⟩ <;> exact outside (Option.some.inj same).symm
  simp only [declarationsAt, shape, Node.tag, List.mem_append, isDeclaration, if_true,
    mem_declaredNames] at member
  rcases member with ⟨around, -⟩ | ⟨-, kind, declares, -⟩
  · have above := (mem_scopesAround.mp (List.mem_of_mem_head? around)).1
    exact absurd (isOwner ▸ above) (linked.notMem_ancestors function)
  · exact ⟨declares, kind⟩

end Tree

namespace Program

variable {p after : Program} {c : Context} {w : Workspace} {e : Expansion} {d : Declaration}
  {function expression call value id parent root root' : NodeId} {grown : Tree}
  {label name : String}

/-- A function that only returns an expression, and the declaration of its name: the function does
not use the name, and it only reads its parameters. -/
structure Inlinable (p : Program) (d : Declaration) (function expression : NodeId) : Prop where
  steady : p.Steady
  attached : p.tree.isWithin function p.root = true
  returned : p.tree.singleReturn? function = some expression
  bound : p.lexicon.binder? d.owner d.name = some d
  around : (p.tree.scopesAround function).head? = some d.owner
  declares : d ∈ p.tree.declarationsAt function
  named : d.name ≠ "undefined"
  apart : ∀ id, p.tree.isWithin id function = true → (p.tree.role id).isUse = true →
    p.lexicon.meaning? id ≠ some d
  reads : ∀ id other, p.tree.isWithin id function = true → p.lexicon.meaning? id = some other →
    other.declaration = function → other.kind = .param → (p.tree.role id).isUse = true →
    (p.tree.role id).reads = true
  template : p.tree.Sealed expression
  parts : ∀ part ∈ [Part.name, .params], ∀ id ∈ (p.tree.node function).part part, p.tree.Sealed id

def IsOwn (p : Program) (function expression id : NodeId) : Prop :=
  ∃ d, p.lexicon.meaning? id = some d ∧
    (d.declaration = function ∧ d.kind = .param ∨ p.tree.isWithin d.declaration expression = true)

structure Clash (p : Program) (function expression site id : NodeId) (name : String) : Prop where
  within : p.tree.isWithin id expression = true
  spelled : (p.node id).identifier? = some name
  isUse : (p.tree.role id).isUse = true
  free : ¬p.IsOwn function expression id
  differs : p.lexicon.look? (p.tree.sight site) name ≠ p.lexicon.meaning? id

theorem Sound.isOwn_iff (sound : p.Sound) : p.IsOwn function expression id ↔
    (p.bindingOf? id).any (p.isTemplateOwn function expression) = true := by
  rw [Option.any_eq_true, IsOwn]
  constructor
  · rintro ⟨d, means, own⟩
    obtain ⟨binding, belongs, stands⟩ := sound.exists_of_meaning? means
    refine ⟨binding, belongs, ?_⟩
    rwa [isTemplateOwn, Bool.or_eq_true, Bool.and_eq_true, decide_eq_true_eq, decide_eq_true_eq,
      show (p.binding binding).declaration = _ from stands.declaration,
      show (p.binding binding).kind = _ from stands.kind]
  · rintro ⟨binding, belongs, own⟩
    obtain ⟨d, means, stands⟩ := sound.exists_of_bindingOf? belongs
    rw [isTemplateOwn, Bool.or_eq_true, Bool.and_eq_true, decide_eq_true_eq, decide_eq_true_eq,
      show (p.binding binding).declaration = _ from stands.declaration,
      show (p.binding binding).kind = _ from stands.kind] at own
    exact ⟨d, means, own⟩

/-- The names of a template mean the same at another place unless one of them clashes. -/
theorem Sound.meansSameAt_iff (sound : p.Sound) {site : NodeId}
    (attached : p.tree.isWithin site p.root = true) (allocated : p.tree.Allocated expression) :
    p.meansSameAt function expression site = true ↔
      ∀ id name, ¬p.Clash function expression site id name := by
  have linked := sound.rooted.linked
  rw [meansSameAt, List.all_eq_true]
  simp only [linked.mem_descendants_iff allocated]
  constructor
  · intro same id name clash
    have checked := same id clash.within
    have notOwn : (p.bindingOf? id).any (p.isTemplateOwn function expression) = false := by
      rw [← Bool.not_eq_true, ← sound.isOwn_iff]
      exact clash.free
    simp only [clash.spelled, clash.isUse, notOwn, Bool.not_true, Bool.false_or,
      decide_eq_true_eq] at checked
    rw [sound.resolve?_eq attached, sound.bindingOf?_eq] at checked
    exact clash.differs (sound.bind_find?_inj (fun _ found => (Lexicon.look?_some found).2)
      (fun _ => Lexicon.meaning?_some) checked)
  · intro same id within
    cases spelled : (p.node id).identifier? with
    | none => rfl
    | some name =>
      by_contra unequal
      simp only [Bool.or_eq_true, Bool.not_eq_true', decide_eq_true_eq, not_or,
        Bool.not_eq_false] at unequal
      obtain ⟨⟨isUse, notOwn⟩, differs⟩ := unequal
      refine same id name ⟨within, spelled, isUse, fun own => notOwn (sound.isOwn_iff.mp own),
        fun agrees => differs ?_⟩
      rw [sound.resolve?_eq attached, sound.bindingOf?_eq, agrees]

theorem Steady.of_meaning? (steady : p.Steady) (means : p.lexicon.meaning? id = some d)
    (isUse : (p.tree.role id).isUse = true) :
    (p.node id).identifier? = some d.name ∧ p.lexicon.look? (p.tree.beyond id) d.name = some d := by
  have spelled := (steady.sound.of_meaning? means).1
  have attached := (isWithin_root_of_meaning? steady.sound.rooted means).1
  have found := steady.linked.meaning?_of_isUse attached spelled isUse
  rw [← Program.lexicon, means] at found
  exact ⟨spelled, found.symm⟩

theorem Inlinable.look?_eq (inlinable : p.Inlinable d function expression) :
    p.lexicon.look? (p.tree.scopesAround function) d.name = some d := by
  have around := inlinable.around
  cases places : p.tree.scopesAround function with
  | nil =>
    rw [places] at around
    cases around
  | cons first rest =>
    rw [places, List.head?_cons, Option.some.injEq] at around
    rw [around, Lexicon.look?, List.findSome?_cons, inlinable.bound]

theorem Inlinable.meaning?_identifier (inlinable : p.Inlinable d function expression) :
    p.lexicon.meaning? d.identifier = some d := by
  have regular := inlinable.steady.linked.regular inlinable.steady.isTop
  exact (regular.meaning?_of_declared (Lexicon.binder?_some inlinable.bound).1).trans
    inlinable.bound

theorem Steady.sight_of_call (steady : p.Steady) {callee : NodeId} {arguments : List NodeId}
    (shape : p.node call = .call callee arguments) : p.tree.sight call = p.tree.beyond call :=
  Tree.sight_eq_beyond (Free.of_isPlain steady (by rw [shape]; rfl)).notBinding
    (Tree.opens_of_isSilent (by rw [show p.tree.node call = _ from shape]; rfl))

structure CallsTo (p : Program) (d : Declaration) (call callee : NodeId)
    (arguments : List NodeId) : Prop where
  shape : p.node call = .call callee arguments
  means : p.lexicon.meaning? callee = some d

namespace CallsTo

variable {callee : NodeId} {arguments : List NodeId} (calls : p.CallsTo d call callee arguments)
  (steady : p.Steady)

include calls

theorem closed : p.tree.opens call = false :=
  Tree.opens_of_isSilent (by rw [show p.tree.node call = _ from calls.shape]; rfl)

include steady

theorem held : p.tree.parent? callee = some call := by
  rw [← steady.linked.mem_children, show p.tree.node call = _ from calls.shape]
  exact List.mem_cons_self ..

theorem attached : p.tree.isWithin call p.root = true :=
  steady.linked.isWithin_root_of_above steady.isTop
    (isWithin_root_of_meaning? steady.sound.rooted calls.means).1
    (steady.linked.isWithin_of_parent (calls.held steady))

theorem isUse : (p.tree.role callee).isUse = true := by
  rw [Tree.role_of_call (calls.held steady) calls.shape]
  rfl

theorem look?_eq : p.lexicon.look? (p.tree.beyond call) d.name = some d := by
  have found := (steady.of_meaning? calls.means (calls.isUse steady)).2
  rwa [steady.linked.beyond_of_parent (calls.held steady), calls.closed, Bool.false_and,
    if_neg Bool.false_ne_true] at found

end CallsTo

/-- A call of the function that may be expanded: the function is not an argument of it. -/
structure Ready (p : Program) (d : Declaration) (call : NodeId) : Prop where
  calls : ∃ callee arguments, p.CallsTo d call callee arguments ∧
    ∀ argument ∈ arguments, p.lexicon.meaning? argument ≠ some d
  isSealed : p.tree.Sealed call

structure Unfolding (p : Program) (d : Declaration) (function expression call : NodeId)
    (e : Expansion) (value : NodeId) (grown : Tree) (after : Program) : Prop where
  inlinable : p.Inlinable d function expression
  expanded : p.Expanded e expression call value grown after
  isExpansion : p.expansion? function call = some e
  isSealed : p.tree.Sealed call
  same : p.meansSameAt function expression call = true
  calls : ∃ callee, p.CallsTo d call callee e.arguments

namespace Unfolding

variable (unfolding : p.Unfolding d function expression call e value grown after)

include unfolding

theorem steady : p.Steady := unfolding.inlinable.steady

theorem afterSteady : after.Steady := unfolding.expanded.afterSteady

theorem expression_inside : p.tree.isWithin expression function = true :=
  unfolding.steady.linked.isWithin_of_singleReturn? unfolding.inlinable.returned

theorem not_isWithin_function : p.tree.isWithin call function = false := by
  obtain ⟨callee, calls⟩ := unfolding.calls
  rw [Bool.eq_false_iff]
  intro within
  have linked := unfolding.steady.linked
  have inside := linked.isWithin_trans (linked.isWithin_of_parent (calls.held unfolding.steady))
    within
  exact unfolding.inlinable.apart callee inside (calls.isUse unfolding.steady) calls.means

theorem owner_mem : d.owner ∈ p.tree.ancestors call := by
  obtain ⟨callee, calls⟩ := unfolding.calls
  exact (unfolding.steady.linked.mem_beyond
    (Lexicon.look?_some (calls.look?_eq unfolding.steady)).1).1

theorem not_isWithin_call : p.tree.isWithin function call = false := by
  have linked := unfolding.steady.linked
  rw [Bool.eq_false_iff]
  intro within
  have inside := unfolding.isSealed.isWithin_owner linked unfolding.inlinable.declares within
  have same := linked.isWithin_antisymm inside (Tree.isWithin_iff.mpr (.inr unfolding.owner_mem))
  exact linked.notMem_ancestors call (same ▸ unfolding.owner_mem)

theorem isSealed_source (isSource : e.IsSource expression root) : p.tree.Sealed root := by
  obtain ⟨callee, calls⟩ := unfolding.calls
  rcases isSource with rfl | ⟨param, isParam, form⟩ | given
  · exact unfolding.inlinable.template
  · obtain ⟨f, id, isFunction, held, made⟩ := exists_of_mem_params unfolding.isExpansion isParam
    obtain ⟨left, shape⟩ := shape_of_param made form
    have isPart : id ∈ (p.tree.node function).part .params := by
      rw [show p.tree.node function = .function f from isFunction]
      exact held
    have isSealed := unfolding.inlinable.parts .params (by simp) id isPart
    cases isSealed with
    | function isFunction => rw [show p.tree.node id = _ from shape] at isFunction; cases isFunction
    | inert _ children =>
      refine children root ?_
      rw [show p.tree.node id = _ from shape]
      simp [Node.children]
  · cases unfolding.isSealed with
    | function isFunction =>
      rw [show p.tree.node call = _ from calls.shape] at isFunction; cases isFunction
    | inert _ children =>
      refine children root ?_
      rw [show p.tree.node call = _ from calls.shape]
      exact List.mem_cons_of_mem _ given

theorem sealedValue : after.tree.Sealed value :=
  unfolding.expanded.isInstance_after.isSealed (fun _ => unfolding.isSealed_source (.inl rfl))
    (fun param isParam _ form => unfolding.isSealed_source (.inr (.inl ⟨param, isParam, form⟩)))
    fun _ given => unfolding.isSealed_source (.inr (.inr given))

theorem isUse_source (isSource : e.IsSource expression root) : (p.tree.role root).isUse = true := by
  have linked := unfolding.steady.linked
  obtain ⟨callee, calls⟩ := unfolding.calls
  have reference : p.tree.role root = .reference := by
    rcases isSource with rfl | ⟨param, isParam, form⟩ | given
    · obtain ⟨f, only, -, -, returned⟩ := Tree.of_singleReturn? unfolding.inlinable.returned
      have held : p.tree.parent? root = some only := by
        rw [← linked.mem_children, returned]
        exact List.mem_singleton_self _
      rw [Tree.role, held]
      simp only [returned]
    · obtain ⟨f, id, -, -, made⟩ := exists_of_mem_params unfolding.isExpansion isParam
      obtain ⟨left, shape⟩ := shape_of_param made form
      have distinct := linked.nodup_children id
      rw [show p.tree.node id = _ from shape] at distinct
      have different : left ≠ root := by simpa [Node.children] using distinct
      rw [Tree.role, parent?_of_param linked made form]
      simp only [show p.tree.node id = _ from shape, if_neg different]
    · have held : p.tree.parent? root = some call := by
        rw [← linked.mem_children, show p.tree.node call = _ from calls.shape]
        exact List.mem_cons_of_mem _ given
      exact Tree.role_of_call held calls.shape
  rw [reference]
  rfl

section Piece

variable {origin : Expansion.Origin} {copy : NodeId}
  (piece : e.Piece p after.tree expression value origin root root')
  (image : p.tree.Image after.tree root root' id copy)

include piece image

theorem isWithin_copy : after.tree.isWithin copy value = true := by
  have afterLinked := unfolding.afterSteady.linked
  exact afterLinked.isWithin_trans (image.isWithin_copy afterLinked)
    (piece.isWithin_value afterLinked)

theorem attached_original : p.tree.isWithin id p.root = true := by
  have linked := unfolding.steady.linked
  exact linked.isWithin_trans (image.isWithin linked) (unfolding.expanded.attached_source
    unfolding.inlinable.attached unfolding.inlinable.returned unfolding.isExpansion piece.isSource)

theorem look?_cases {found : Option Declaration}
    (isFound : after.lexicon.look? (after.tree.beyond copy) name = found)
    (far : ∀ d, found = some d → after.tree.isWithin d.owner value = false) :
    (p.lexicon.look? (p.tree.beyond id) name = p.lexicon.look? (p.tree.scopesAround root) name ∧
        p.lexicon.look? (p.tree.scopesAround call) name = found) ∨
      p.lexicon.look? (p.tree.beyond id) name = p.lexicon.look? (p.tree.beyond root) name := by
  have linked := unfolding.steady.linked
  have afterLinked := unfolding.afterSteady.linked
  have imaged := piece.imaged unfolding.isSealed_source
  have attachedAfter := afterLinked.isWithin_trans (piece.isWithin_value afterLinked)
    unfolding.expanded.attachedAfter
  have binds {owner owner' : NodeId} (isImage : p.tree.Image after.tree root root' owner owner')
      (opens : p.tree.opens owner = true) :
      (after.lexicon.binder? owner' name).isSome = (p.lexicon.binder? owner name).isSome :=
    imaged.isSome_binder? linked afterLinked unfolding.steady.wellBound unfolding.steady.isTop
      unfolding.afterSteady.isTop (unfolding.attached_original piece .root)
      attachedAfter isImage opens
  rcases (imaged.outlook linked afterLinked image).2.look?_cases p.lexicon after.lexicon
    name binds with ⟨owner, owner', isImage, member, bound, -, foundAfter⟩ |
      ⟨same, foundAfter⟩ | ⟨same, -⟩
  · -- The scope of the copy is part of the instance.
    rw [← binds isImage (linked.mem_beyond member).2, ← foundAfter, isFound,
      Option.isSome_iff_exists] at bound
    obtain ⟨d, rfl⟩ := bound
    have apart := far d rfl
    rw [(Lexicon.binder?_some (foundAfter.symm.trans isFound)).2.1,
      unfolding.isWithin_copy piece isImage] at apart
    cases apart
  · refine .inl ⟨same, ?_⟩
    obtain ⟨inner, around, inside⟩ := afterLinked.exists_scopesAround
      (piece.isWithin_value afterLinked)
    rw [isFound, around] at foundAfter
    rw [← unfolding.expanded.look?_outside unfolding.isSealed unfolding.sealedValue]
    refine Lexicon.look?_of_append foundAfter.symm fun d isFound member => ?_
    have apart := far d isFound
    rw [inside _ member] at apart
    cases apart
  · exact .inr same

end Piece

theorem look?_of_argument {copy : NodeId}
    (piece : e.Piece p after.tree expression value .argument root root')
    (image : p.tree.Image after.tree root root' id copy) {found : Option Declaration}
    (isFound : after.lexicon.look? (after.tree.beyond copy) name = found)
    (far : ∀ d, found = some d → after.tree.isWithin d.owner value = false) :
    p.lexicon.look? (p.tree.beyond id) name = found ∨
      p.lexicon.look? (p.tree.beyond id) name = p.lexicon.look? (p.tree.beyond call) name := by
  have linked := unfolding.steady.linked
  obtain ⟨callee, calls⟩ := unfolding.calls
  have held : p.tree.parent? root = some call := by
    rw [← linked.mem_children, show p.tree.node call = _ from calls.shape]
    exact List.mem_cons_of_mem _ piece.mem_arguments
  rcases unfolding.look?_cases piece image isFound far with ⟨same, around⟩ | same
  · rw [linked.scopesAround_of_parent held, Tree.scopesFrom_of_closed calls.closed, around] at same
    exact .inl same
  · rw [linked.beyond_of_parent held, calls.closed, Bool.false_and, if_neg Bool.false_ne_true]
      at same
    exact .inr same

theorem places_of_default {param : Param} (isParam : param ∈ e.params)
    (form : param.form = .defaulted root) :
    p.tree.isWithin root function = true ∧
      p.tree.scopesAround root = function :: p.tree.scopesAround function ∧
      p.tree.beyond root = function :: p.tree.scopesAround function := by
  have linked := unfolding.steady.linked
  obtain ⟨f, id, isFunction, held, made⟩ := exists_of_mem_params unfolding.isExpansion isParam
  obtain ⟨left, shape⟩ := shape_of_param made form
  have above : p.tree.parent? id = some function := by
    rw [← linked.mem_children, show p.tree.node function = .function f from isFunction]
    simp [Node.children, held]
  have closed : p.tree.opens id = false :=
    Tree.opens_of_isSilent (by rw [show p.tree.node id = _ from shape]; rfl)
  have opens := Tree.opens_of_function (t := p.tree) isFunction
  have noDiscriminant : p.tree.holds function id .discriminant = false := by
    rw [Tree.holds, show p.tree.node function = .function f from isFunction]
    rfl
  have inside := parent?_of_param linked made form
  refine ⟨linked.isWithin_trans (linked.isWithin_of_parent inside)
    (linked.isWithin_of_parent above), ?_, ?_⟩
  · rw [linked.scopesAround_of_parent inside, Tree.scopesFrom_of_closed closed,
      linked.scopesAround_of_parent above, Tree.scopesFrom_of_opens opens]
  · rw [linked.beyond_of_parent inside, closed, Bool.false_and, if_neg Bool.false_ne_true,
      linked.beyond_of_parent above, opens, noDiscriminant, Bool.not_false,
      Bool.and_self, if_pos rfl, Tree.scopesFrom_of_opens opens]

theorem meaning?_of_default {param : Param} (isParam : param ∈ e.params)
    (form : param.form = .defaulted root)
    (found : p.lexicon.meaning? id = p.lexicon.look? (p.tree.scopesAround root) d.name ∨
      p.lexicon.meaning? id = p.lexicon.look? (p.tree.beyond root) d.name) :
    p.lexicon.meaning? id = some d ∨
      ∃ other, p.lexicon.meaning? id = some other ∧ other.declaration = function ∧
        other.kind = .param := by
  have linked := unfolding.steady.linked
  obtain ⟨-, around, beyond⟩ := unfolding.places_of_default isParam form
  rw [around, beyond, or_self, Lexicon.look?, List.findSome?_cons] at found
  cases bound : p.lexicon.binder? function d.name with
  | none =>
    rw [bound, ← Lexicon.look?] at found
    exact .inl (found.trans unfolding.inlinable.look?_eq)
  | some other =>
    rw [bound] at found
    obtain ⟨member, isOwner, -⟩ := Lexicon.binder?_some bound
    obtain ⟨id, -, declares⟩ := (linked.mem_declared unfolding.steady.isTop).mp member
    have isFunction := linked.mem_declarationsAt_of_owner unfolding.inlinable.returned
      unfolding.inlinable.template unfolding.inlinable.parts declares isOwner
    subst isFunction
    obtain ⟨f, -, shape, -⟩ := Tree.of_singleReturn? unfolding.inlinable.returned
    refine .inr ⟨other, found.trans rfl, linked.param_of_owner shape unfolding.inlinable.declares ?_
      declares isOwner⟩
    intro same
    have above := (Tree.mem_scopesAround.mp (List.mem_of_mem_head? unfolding.inlinable.around)).1
    exact linked.notMem_ancestors id (same ▸ above)

theorem far {other : Declaration} (bound : p.lexicon.binder? other.owner other.name = some other) :
    after.tree.isWithin other.owner value = false := by
  have linked := unfolding.steady.linked
  have isTop := unfolding.steady.isTop
  have attached := (linked.scopes_owner isTop (Lexicon.binder?_some bound).1).2.2.1
  exact unfolding.expanded.not_isWithin_value (linked.allocated_of_isWithin attached
    isTop.allocated)

theorem isUse_original {origin : Expansion.Origin} {copy callee : NodeId} {arguments : List NodeId}
    (piece : e.Piece p after.tree expression value origin root root')
    (image : p.tree.Image after.tree root root' id copy)
    (held : after.tree.parent? copy = some parent)
    (shape : after.tree.node parent = .call callee arguments) : (p.tree.role id).isUse = true := by
  have linked := unfolding.steady.linked
  cases image with
  | root => exact unfolding.isUse_source piece.isSource
  | @child outer outer' id f image mirrors inside =>
    have above := unfolding.afterSteady.linked.parent?_of_mirrors mirrors inside
    rw [held, Option.some.injEq] at above
    obtain ⟨_, _, original⟩ := Node.exists_call_of_tag mirrors.tag (above ▸ shape)
    rw [Tree.role_of_call (linked.mem_children.mp inside) original]
    rfl

theorem isSome_paramOf? {other : Declaration} (inside : p.tree.isWithin id function = true)
    (spelled : (p.node id).identifier? = some name) (isUse : (p.tree.role id).isUse = true)
    (means : p.lexicon.meaning? id = some other) (declares : other.declaration = function)
    (kind : other.kind = .param) : (e.paramOf? p id).isSome = true := by
  obtain ⟨binding, belongs, stands⟩ := unfolding.steady.sound.exists_of_meaning? means
  exact unfolding.steady.isSome_paramOf?_of_reads unfolding.isExpansion
    (by rw [Node.isIdentifier, spelled]; rfl)
    (unfolding.inlinable.reads id other inside means declares kind isUse) belongs
    (stands.declaration.trans declares) (stands.kind.trans kind)

/-- A use of the returned expression, outside of the functions in it, that has the name of the
function is a parameter: otherwise it would mean the function, as it does at the call. -/
theorem isSome_paramOf?_of_returned (within : p.tree.isWithin id expression = true)
    (spelled : (p.node id).identifier? = some d.name) (isUse : (p.tree.role id).isUse = true)
    (found : p.lexicon.meaning? id = p.lexicon.look? (p.tree.scopesAround expression) d.name ∨
      p.lexicon.meaning? id = p.lexicon.look? (p.tree.beyond expression) d.name) :
    (e.paramOf? p id).isSome = true := by
  have linked := unfolding.steady.linked
  have sound := unfolding.steady.sound
  have inlinable := unfolding.inlinable
  have inside := linked.isWithin_trans within unfolding.expression_inside
  rcases of_meansSameAt linked (linked.allocated_of_singleReturn? inlinable.returned) unfolding.same
    within spelled isUse with ⟨binding, belongs, own⟩ | same
  · obtain ⟨other, means, stands⟩ := sound.exists_of_bindingOf? belongs
    rw [isTemplateOwn, Bool.or_eq_true, Bool.and_eq_true, decide_eq_true_eq, decide_eq_true_eq,
      show (p.binding binding).declaration = _ from stands.declaration,
      show (p.binding binding).kind = _ from stands.kind] at own
    rcases own with ⟨declares, kind⟩ | declaredInside
    · exact unfolding.isSome_paramOf? inside spelled isUse means declares kind
    · -- What is declared in the expression is not found around it.
      obtain ⟨y, -, declared⟩ := (linked.mem_declared unfolding.steady.isTop).mp
        (Lexicon.binder?_some (Lexicon.meaning?_some means)).1
      have ownerInside := inlinable.template.isWithin_owner_of_declaration linked
        unfolding.steady.wellBound declared declaredInside
      have above : other.owner ∈ p.tree.ancestors expression := by
        rw [means] at found
        rcases found with found | found
        · exact (Tree.mem_scopesAround.mp (Lexicon.look?_some found.symm).1).1
        · exact (linked.mem_beyond (Lexicon.look?_some found.symm).1).1
      have same := linked.isWithin_antisymm ownerInside (Tree.isWithin_iff.mpr (.inr above))
      exact absurd (same ▸ above) (linked.notMem_ancestors expression)
  · obtain ⟨callee, calls⟩ := unfolding.calls
    rw [sound.resolve?_eq unfolding.expanded.attached, sound.bindingOf?_eq,
      Tree.sight_eq_beyond unfolding.expanded.freeCall.notBinding calls.closed,
        calls.look?_eq unfolding.steady] at same
    have means := sound.bind_find?_inj (fun _ isD => Option.some.inj isD ▸ inlinable.bound)
      (fun _ => Lexicon.meaning?_some) same
    exact absurd means.symm (inlinable.apart id inside isUse)

theorem exists_argument {copy callee : NodeId} {arguments : List NodeId}
    (within : after.tree.isWithin copy value = true) (means : after.lexicon.meaning? copy = some d)
    (held : after.tree.parent? copy = some parent)
    (shape : after.tree.node parent = .call callee arguments) :
    ∃ root root' id, e.Piece p after.tree expression value .argument root root' ∧
      p.tree.Image after.tree root root' id copy ∧ p.lexicon.meaning? id = some d := by
  have linked := unfolding.steady.linked
  have steady := unfolding.steady
  have afterSteady := unfolding.afterSteady
  have isUseAfter : (after.tree.role copy).isUse = true := by
    rw [Tree.role_of_call held shape]
    rfl
  obtain ⟨spelledAfter, foundAfter⟩ := afterSteady.of_meaning? means isUseAfter
  have far : ∀ other, some d = some other → after.tree.isWithin other.owner value = false :=
    fun other same =>
      Option.some.inj same ▸ unfolding.far unfolding.inlinable.bound
  have isInstance := unfolding.expanded.isInstance_after
  rcases isInstance.exists_piece afterSteady.linked rfl (.returned isInstance) .root within with
    ⟨origin, root, root', id, piece, image, isSolid⟩ | ⟨_, _, _, _, -, -, -, isUndefined | isArray⟩
  · refine ⟨root, root', id, ?_⟩
    obtain ⟨f, mirrors, -⟩ := (piece.isInstance.image
      (fun isUse => (Expansion.Origin.isIdentifier_of_paramOf? isUse).1) image).exists_mirrors
      isSolid
    have spelled : (p.node id).identifier? = some d.name :=
      mirrors.identifier?.symm.trans spelledAfter
    have isUse := unfolding.isUse_original piece image held shape
    have use := linked.meaning?_of_isUse (unfolding.attached_original piece image) spelled isUse
    have outer := unfolding.look?_cases piece image foundAfter far
    have around : p.lexicon.meaning? id = p.lexicon.look? (p.tree.scopesAround root) d.name ∨
        p.lexicon.meaning? id = p.lexicon.look? (p.tree.beyond root) d.name :=
      outer.imp (fun found => use.trans found.1) use.trans
    cases origin with
    | argument =>
      refine ⟨piece, image, ?_⟩
      obtain ⟨callee, calls⟩ := unfolding.calls
      rcases unfolding.look?_of_argument piece image foundAfter far with found | found
      · exact use.trans found
      · exact use.trans (found.trans (calls.look?_eq steady))
    | returned =>
      cases piece
      have isParam := unfolding.isSome_paramOf?_of_returned (image.isWithin linked)
        spelled isUse around
      rw [show e.paramOf? p id = none from isSolid] at isParam
      cases isParam
    | default =>
      cases piece with
      | default outer isTemplate hole used form =>
        have isParam := Expansion.mem_params_of_paramOf? used
        have inside := linked.isWithin_trans (image.isWithin linked)
          (unfolding.places_of_default isParam form).1
        rcases unfolding.meaning?_of_default isParam form around with
          means | ⟨other, means, declares, kind⟩
        · exact absurd means (unfolding.inlinable.apart id inside isUse)
        · have isParam := unfolding.isSome_paramOf? inside spelled isUse means declares kind
          rw [show e.paramOf? p id = none from isSolid] at isParam
          cases isParam
  · have spelledCopy : (after.node copy).identifier? = some "undefined" := by
      rw [← Node.identifier?_tag, show (after.node copy).tag = _ from isUndefined]
      rfl
    rw [spelledAfter, Option.some.injEq] at spelledCopy
    exact absurd spelledCopy unfolding.inlinable.named
  · rw [← Node.identifier?_tag, show (after.node copy).tag = _ from isArray] at spelledAfter
    cases spelledAfter

theorem outside_of_function (inside : p.tree.isWithin id function = true) :
    p.tree.isWithin id p.root = true ∧ p.tree.isWithin id call = false := by
  have linked := unfolding.steady.linked
  refine ⟨linked.isWithin_trans inside unfolding.inlinable.attached, ?_⟩
  rw [Bool.eq_false_iff]
  intro within
  rcases linked.isWithin_linear inside within with around | around
  · rw [unfolding.not_isWithin_call] at around
    cases around
  · rw [unfolding.not_isWithin_function] at around
    cases around

theorem isWithin_iff_of_function {piece : NodeId} (inside : p.tree.isWithin piece function = true) :
    after.tree.isWithin id piece = true ↔ p.tree.isWithin id piece = true := by
  obtain ⟨attached, outside⟩ := unfolding.outside_of_function inside
  refine unfolding.expanded.isWithin_apart_iff attached ?_ outside
  rw [Bool.eq_false_iff]
  intro within
  have around := unfolding.steady.linked.isWithin_trans within inside
  rw [unfolding.not_isWithin_function] at around
  cases around

theorem meaning?_of_function (inside : p.tree.isWithin id function = true) :
    after.lexicon.meaning? id = p.lexicon.meaning? id := by
  obtain ⟨attached, outside⟩ := unfolding.outside_of_function inside
  exact unfolding.expanded.meaning?_of_outside unfolding.isSealed unfolding.sealedValue
    attached outside

theorem role_of_function (inside : p.tree.isWithin id function = true) :
    after.tree.role id = p.tree.role id :=
  unfolding.expanded.alike_after.role unfolding.steady.linked unfolding.afterSteady.linked
    (unfolding.outside_of_function inside)

theorem clash_after {site site' : NodeId} (clash : p.Clash function expression site id name)
    (differs : after.lexicon.look? (after.tree.sight site') name ≠ p.lexicon.meaning? id) :
    after.Clash function expression site' id name := by
  have inside := unfolding.steady.linked.isWithin_trans clash.within unfolding.expression_inside
  have means := unfolding.meaning?_of_function inside
  refine ⟨(unfolding.isWithin_iff_of_function unfolding.expression_inside).mpr clash.within,
    ?_, ?_, ?_, ?_⟩
  · exact (unfolding.expanded.alike_after.identifier? (unfolding.outside_of_function inside)).trans
      clash.spelled
  · rw [unfolding.role_of_function inside, clash.isUse]
  · rintro ⟨other, isMeant, own⟩
    rw [means] at isMeant
    exact clash.free ⟨other, isMeant,
      own.imp_right (unfolding.isWithin_iff_of_function unfolding.expression_inside).mp⟩
  · rwa [means]

theorem clash_of_outside {site callee : NodeId} {arguments : List NodeId}
    (clash : p.Clash function expression site id name)
    (shape : p.node site = .call callee arguments) (attached : p.tree.isWithin site p.root = true)
    (outside : p.tree.isWithin site call = false) :
    after.Clash function expression site id name := by
  obtain ⟨_, _, shapeAfter⟩ :=
    Node.exists_call_of_tag (unfolding.expanded.alike_after.tag ⟨attached, outside⟩).symm shape
  refine unfolding.clash_after clash ?_
  rw [unfolding.afterSteady.sight_of_call shapeAfter,
    unfolding.expanded.look?_of_outside unfolding.isSealed unfolding.sealedValue attached outside,
    ← unfolding.steady.sight_of_call shape]
  exact clash.differs

theorem clash_of_argument {site copy callee callee' : NodeId} {arguments arguments' : List NodeId}
    (clash : p.Clash function expression site id name)
    (piece : e.Piece p after.tree expression value .argument root root')
    (image : p.tree.Image after.tree root root' site copy)
    (shape : p.node site = .call callee arguments)
    (shapeAfter : after.node copy = .call callee' arguments') :
    after.Clash function expression copy id name := by
  refine unfolding.clash_after clash fun found => clash.differs ?_
  rw [unfolding.afterSteady.sight_of_call shapeAfter] at found
  have far : ∀ other, p.lexicon.meaning? id = some other →
      after.tree.isWithin other.owner value = false :=
    fun other means => unfolding.far (Lexicon.meaning?_some means)
  rw [unfolding.steady.sight_of_call shape]
  rcases unfolding.look?_of_argument piece image found far with same | same
  · exact same
  · -- What is found at the call is what the template means.
    obtain ⟨callee, calls⟩ := unfolding.calls
    have allocated :=
      unfolding.steady.linked.allocated_of_singleReturn? unfolding.inlinable.returned
    have agrees := (unfolding.steady.sound.meansSameAt_iff unfolding.expanded.attached allocated).mp
      unfolding.same
    by_contra differs
    refine agrees id name ⟨clash.within, clash.spelled, clash.isUse, clash.free, ?_⟩
    rwa [unfolding.steady.sight_of_call calls.shape, ← same]

theorem inlinable_after : after.Inlinable d function expression := by
  have linked := unfolding.steady.linked
  have inlinable := unfolding.inlinable
  obtain ⟨attached, outside⟩ := unfolding.outside_of_function Tree.isWithin_self
  have node {id : NodeId} (inside : p.tree.isWithin id function = true) :
      after.tree.node id = p.tree.node id :=
    unfolding.expanded.node_of_apart unfolding.not_isWithin_function inside
      (linked.allocated_of_isWithin inside
        (linked.allocated_of_isWithin attached unfolding.steady.isTop.allocated))
  have sealedAfter {root : NodeId} (isSealed : p.tree.Sealed root)
      (inside : p.tree.isWithin root function = true) : after.tree.Sealed root :=
    isSealed.of_same linked fun id within => node (linked.isWithin_trans within inside)
  have insideAfter {id : NodeId} : after.tree.isWithin id function = true ↔
      p.tree.isWithin id function = true :=
    unfolding.isWithin_iff_of_function Tree.isWithin_self
  have owner := unfolding.expanded.outside_of_mem_ancestors unfolding.owner_mem
  refine ⟨unfolding.afterSteady, unfolding.expanded.attached_iff.mpr (.inl ⟨attached, outside⟩),
    ?_, ?_, ?_, ?_, inlinable.named, ?_, ?_,
    sealedAfter inlinable.template unfolding.expression_inside, ?_⟩
  · obtain ⟨f, only, shape, block, returned⟩ := Tree.of_singleReturn? inlinable.returned
    have bodyHeld : p.tree.parent? f.body = some function := by
      rw [← linked.mem_children, shape]
      simp [Node.children]
    have onlyHeld : p.tree.parent? only = some f.body := by
      rw [← linked.mem_children, block]
      exact List.mem_singleton_self _
    have bodyInside := linked.isWithin_of_parent bodyHeld
    have onlyInside := linked.isWithin_trans (linked.isWithin_of_parent onlyHeld) bodyInside
    rw [← node Tree.isWithin_self] at shape
    rw [← node bodyInside] at block
    rw [← node onlyInside] at returned
    simp only [Tree.singleReturn?, shape, Node.function?, Option.bind_eq_bind, Option.bind_some,
      block, returned]
  · rw [unfolding.expanded.binder?_of_outside unfolding.isSealed unfolding.sealedValue
      owner.1 owner.2, inlinable.bound]
  · rw [unfolding.expanded.alike_after.scopesAround linked unfolding.afterSteady.linked
      ⟨attached, outside⟩, inlinable.around]
  · refine unfolding.expanded.mem_declarationsAt attached outside inlinable.declares ?_
    exact (unfolding.outside_of_function (linked.isWithin_of_mem inlinable.declares)).2
  · intro id inside isUse
    have inside := insideAfter.mp inside
    rw [unfolding.role_of_function inside] at isUse
    rw [unfolding.meaning?_of_function inside]
    exact inlinable.apart id inside isUse
  · intro id other inside means declares kind isUse
    have inside := insideAfter.mp inside
    rw [unfolding.role_of_function inside] at isUse ⊢
    rw [unfolding.meaning?_of_function inside] at means
    exact inlinable.reads id other inside means declares kind isUse
  · intro part isPart id held
    rw [node Tree.isWithin_self] at held
    exact sealedAfter (inlinable.parts part isPart id held)
      (linked.isWithin_of_parent (linked.parent?_of_mem_part held))

section Foreign

variable (foreign : ∀ argument ∈ e.arguments, p.lexicon.meaning? argument ≠ some d)

include foreign

/-- The instance is not the name of the function unless an argument was. -/
theorem meaning?_value_ne {callee : NodeId} {arguments : List NodeId}
    (held : after.tree.parent? value = some parent)
    (shape : after.tree.node parent = .call callee arguments) :
    after.lexicon.meaning? value ≠ some d := by
  intro means
  have linked := unfolding.steady.linked
  have afterLinked := unfolding.afterSteady.linked
  obtain ⟨root, root', id, piece, image, means⟩ := unfolding.exists_argument Tree.isWithin_self
    means held shape
  have whole := afterLinked.isWithin_antisymm (image.isWithin_copy afterLinked)
    (piece.isWithin_value afterLinked)
  rw [(image.eq_root_iff linked afterLinked).mp whole] at means
  exact foreign root piece.mem_arguments means

theorem ready_after {other : NodeId} (ready : p.Ready d other)
    (outside : p.tree.isWithin other call = false) :
    after.Ready d other := by
  have linked := unfolding.steady.linked
  obtain ⟨callee, arguments, calls, apart⟩ := ready.calls
  have attached := calls.attached unfolding.steady
  have allocated := linked.allocated_of_isWithin attached unfolding.steady.isTop.allocated
  have mirrors := unfolding.expanded.mirrors allocated
  have stays {child : NodeId} (held : p.tree.parent? child = some other)
      (different : child ≠ call) :
      after.lexicon.meaning? child = p.lexicon.meaning? child := by
    refine unfolding.expanded.meaning?_of_outside unfolding.isSealed unfolding.sealedValue
      (linked.isWithin_trans (linked.isWithin_of_parent held) attached) ?_
    rw [linked.isWithin_parent held different, outside]
  have isCallee : callee ≠ call := by
    rintro rfl
    have spelled := unfolding.steady.sound.isIdentifier_of_meaning? calls.means
    obtain ⟨_, shape⟩ := unfolding.expanded.isCall
    rw [shape] at spelled
    cases spelled
  obtain ⟨callee', arguments', shapeAfter⟩ := Node.exists_call_of_tag mirrors.tag.symm calls.shape
  obtain ⟨_, _, shape, rfl, rfl⟩ := mirrors.exists_of_call shapeAfter
  obtain ⟨rfl, rfl⟩ := Node.call.inj (calls.shape.symm.trans shape)
  rw [Node.exchange_of_ne isCallee] at shapeAfter
  refine ⟨⟨callee, _, ⟨shapeAfter, ?_⟩, ?_⟩, ?_⟩
  · rw [stays (calls.held unfolding.steady) isCallee, calls.means]
  · intro argument isArgument
    obtain ⟨given, isGiven, rfl⟩ := List.mem_map.mp isArgument
    have held : p.tree.parent? given = some other := by
      rw [← linked.mem_children, shape]
      exact List.mem_cons_of_mem _ isGiven
    by_cases same : given = call
    · subst same
      rw [Node.exchange, if_pos rfl]
      exact unfolding.meaning?_value_ne foreign (unfolding.expanded.place.trans held) shapeAfter
    · rw [Node.exchange_of_ne same, stays held same]
      exact apart given isGiven
  · refine unfolding.expanded.edited.isSealed ?_ unfolding.sealedValue
    exact ready.isSealed.of_same linked fun id within =>
      unfolding.expanded.building.grows.node (linked.allocated_of_isWithin within allocated)

theorem calls_cases {site callee : NodeId} {arguments : List NodeId}
    (calls : after.CallsTo d site callee arguments) :
    (∃ arguments, p.CallsTo d site callee arguments ∧ p.tree.isWithin site call = false) ∨
      ∃ original root root' callee arguments, p.CallsTo d original callee arguments ∧
        e.Piece p after.tree expression value .argument root root' ∧
        p.tree.Image after.tree root root' original site := by
  have linked := unfolding.steady.linked
  have afterLinked := unfolding.afterSteady.linked
  have held := calls.held unfolding.afterSteady
  cases within : after.tree.isWithin callee value with
  | true =>
    obtain ⟨root, root', id, piece, image, means⟩ := unfolding.exists_argument within calls.means
      held calls.shape
    cases image with
    | root => exact absurd means (foreign root piece.mem_arguments)
    | @child original copy id f image mirrors inside =>
      obtain rfl :=
        Option.some.inj ((afterLinked.parent?_of_mirrors mirrors inside).symm.trans held)
      obtain ⟨first, given, shape, same, -⟩ := mirrors.exists_of_call calls.shape
      have distinct := afterLinked.nodup_children copy
      rw [mirrors.children] at distinct
      have isFirst : first ∈ (p.tree.node original).children := by
        rw [shape]
        exact List.mem_cons_self ..
      obtain rfl := List.inj_on_of_nodup_map distinct inside isFirst same
      exact .inr ⟨original, root, root', id, given, ⟨shape, means⟩, piece, image⟩
  | false =>
    have attachedAfter :=
      (isWithin_root_of_meaning? unfolding.afterSteady.sound.rooted calls.means).1
    obtain ⟨attached, outside⟩ := (unfolding.expanded.attached_iff.mp attachedAfter).resolve_right
      (by rw [within]; exact Bool.false_ne_true)
    rw [unfolding.expanded.parent?_of_outside attached outside] at held
    obtain ⟨first, given, shape, same, -⟩ :=
      (unfolding.expanded.mirrors (linked.allocated_parent held)).exists_of_call calls.shape
    have isFirst : first = callee := by
      by_cases isCall : first = call
      · rw [same, Node.exchange, if_pos isCall, Tree.isWithin_self] at within
        cases within
      · rw [same, Node.exchange_of_ne isCall]
    subst isFirst
    refine .inl ⟨given, ⟨shape, ?_⟩, ?_⟩
    · rw [← calls.means, unfolding.expanded.meaning?_of_outside unfolding.isSealed
        unfolding.sealedValue attached outside]
    · rw [Bool.eq_false_iff]
      intro below
      rw [linked.isWithin_trans (linked.isWithin_of_parent held) below] at outside
      cases outside

end Foreign

end Unfolding

end Program

end Unravel
