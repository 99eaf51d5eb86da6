import Unravel.Proofs.Simplify.Hygiene

/-!
Calls that have been expanded (`Program.Inlined`): which names of the template and of the arguments
mean in their copies what they meant.
-/

namespace Unravel

namespace Program

variable {p after : Program} {c : Context} {w : Workspace} {e : Expansion}
  {function expression call value root root' id copy : NodeId} {grown : Tree} {label name : String}
  {origin : Expansion.Origin}

/-! ### Names of the template -/

theorem of_meansSameAt (linked : p.tree.Linked) (allocated : p.tree.Allocated expression)
    (same : p.meansSameAt function expression call = true)
    (within : p.tree.isWithin id expression = true) (spelled : (p.node id).identifier? = some name)
    (isUse : (p.tree.role id).isUse = true) :
    (∃ binding, p.bindingOf? id = some binding ∧
      p.isTemplateOwn function expression binding = true) ∨
      p.resolve? call name = p.bindingOf? id := by
  rw [meansSameAt, List.all_eq_true] at same
  have checked := same id ((linked.mem_descendants_iff allocated).mpr within)
  simpa [spelled, isUse, Option.any_eq_true] using checked

theorem exists_pattern_of_param {d : Declaration} (member : d ∈ p.tree.declarationsAt id)
    (kind : d.kind = .param) :
    d.declaration = id ∧ ∃ pattern ∈ (p.tree.node id).part .params,
      d.identifier ∈ p.tree.patternNames pattern := by
  have otherwise {owner : Option NodeId} {other : BindingKind} {declaration : NodeId}
      {names : List NodeId} (member : d ∈ p.tree.declaredNames owner other declaration names)
      (different : other ≠ .param) : False :=
    different ((Tree.mem_declaredNames.mp member).2.1.symm.trans kind)
  unfold Tree.declarationsAt at member
  split at member
  case h_1 varKind _ _ =>
    obtain ⟨_, -, below⟩ := List.mem_flatMap.mp member
    exact (otherwise below (by cases varKind <;> decide)).elim
  case h_2 f _ =>
    rcases List.mem_append.mp member with member | member
    · split at member <;> exact (otherwise member (by decide)).elim
    · obtain ⟨-, -, declares, named, -⟩ := Tree.mem_declaredNames.mp member
      obtain ⟨pattern, held, named⟩ := List.mem_flatMap.mp named
      exact ⟨declares, pattern, held, named⟩
  case h_3 =>
    split at member
    · exact (otherwise member (by decide)).elim
    · cases member
  case h_4 => cases member

theorem binding_of_param (linked : p.tree.Linked) {pattern identifier : NodeId} {param : Param}
    (allocated : p.tree.Allocated pattern) (isParam : p.param pattern = .ok param)
    (named : identifier ∈ p.tree.patternNames pattern) :
    param.binding = p.bindingOf? identifier := by
  have single {inner : NodeId} (held : (p.tree.node pattern).part .pattern = [inner])
      (isIdentifier : (p.tree.node inner).isIdentifier = true) : identifier = inner := by
    have notIdentifier : (p.tree.node pattern).isIdentifier = false := by
      cases shape : p.tree.node pattern <;>
        simp_all [Node.isIdentifier, Node.identifier?, Node.part]
    have innerAllocated := linked.allocated_of_mem_part (held ▸ List.mem_singleton_self inner)
    rw [linked.patternNames_eq allocated, notIdentifier, if_neg Bool.false_ne_true, held,
      List.flatMap_singleton, linked.patternNames_eq innerAllocated, if_pos isIdentifier] at named
    exact List.mem_singleton.mp named
  unfold Program.param at isParam
  split at isParam
  · rename_i shape
    cases isParam
    rw [linked.patternNames_eq allocated, show p.tree.node pattern = _ from shape] at named
    simp only [Node.isIdentifier, Node.identifier?, Option.isSome_some, if_true,
      List.mem_singleton] at named
    rw [named]
  · rename_i left right shape
    split at isParam
    · rename_i isIdentifier
      cases isParam
      rw [single (by rw [show p.tree.node pattern = _ from shape]; rfl) isIdentifier]
    · cases isParam
  · rename_i inner shape
    split at isParam
    · rename_i isIdentifier
      cases isParam
      rw [single (by rw [show p.tree.node pattern = _ from shape]; rfl) isIdentifier]
    · cases isParam
  · cases isParam

theorem exists_of_mapM_of_mem {ε α β : Type} {f : α → Except ε β} {items : List α}
    {results : List β} (made : items.mapM f = .ok results) {item : α} (member : item ∈ items) :
    ∃ result ∈ results, f item = .ok result := by
  induction items generalizing results with
  | nil => cases member
  | cons head rest induction =>
    rw [List.mapM_cons] at made
    simp only [bind_eq_ok_iff] at made
    obtain ⟨first, isFirst, others, areOthers, same⟩ := made
    cases same
    rcases List.mem_cons.mp member with rfl | member
    · exact ⟨first, List.mem_cons_self .., isFirst⟩
    · obtain ⟨result, isResult, made⟩ := induction areOthers member
      exact ⟨result, List.mem_cons_of_mem _ isResult, made⟩

theorem not_writes_of_template? (template : p.template? function = some expression) {b : Binding}
    (member : b ∈ p.scopes.live) (kind : b.kind = .param) (declares : b.declaration = function) :
    b.mutations = [] := by
  rw [template?, Option.bind_eq_bind, Option.bind_eq_some_iff] at template
  obtain ⟨f, -, template⟩ := template
  rw [Option.bind_eq_bind, Option.bind_eq_some_iff] at template
  obtain ⟨returned, -, template⟩ := template
  rw [Option.ite_none_left_eq_some] at template
  have unwritten : p.writesParameters function = false := by
    by_contra writes
    simp_all
  rw [writesParameters, List.any_eq_false] at unwritten
  have := unwritten b member
  simpa [kind, declares] using this

theorem Steady.isSome_paramOf?_of_reads (steady : p.Steady)
    (isExpansion : p.expansion? function call = some e) {binding : BindingId}
    (isIdentifier : (p.node id).isIdentifier = true) (reads : (p.tree.role id).reads = true)
    (belongs : p.bindingOf? id = some binding)
    (declares : (p.binding binding).declaration = function)
    (kind : (p.binding binding).kind = .param) : (e.paramOf? p id).isSome = true := by
  have linked := steady.linked
  have sound := steady.sound
  obtain ⟨d, means, stands⟩ := sound.exists_of_bindingOf? belongs
  have bound := Lexicon.meaning?_some means
  obtain ⟨y, -, declared⟩ := (linked.mem_declared steady.isTop).mp (Lexicon.binder?_some bound).1
  obtain ⟨isFunction, pattern, held, named⟩ := exists_pattern_of_param declared
    (stands.kind.symm.trans kind)
  have place : pattern ∈ (p.tree.node function).part .params := by
    rwa [← isFunction, ← stands.declaration,
      show (p.scopes.binding binding).declaration = function from declares] at held
  have areParams := (mapM_of_expansion? isExpansion).1
  obtain ⟨param, isParam, made⟩ : ∃ param ∈ e.params, p.param pattern = .ok param := by
    cases shape : p.node function with
    | function f =>
      rw [shape] at areParams
      rw [show p.tree.node function = .function f from shape] at place
      exact exists_of_mapM_of_mem areParams place
    | _ =>
      rw [show p.tree.node function = _ from shape] at place
      cases place
  have same : param.binding = some binding := by
    have sameMeaning :=
      (linked.regular steady.isTop).meaning?_of_declared (Lexicon.binder?_some bound).1
    rw [binding_of_param linked (linked.allocated_of_mem_part place) made named, ← belongs,
      sound.bindingOf?_eq, sound.bindingOf?_eq, means,
      show p.lexicon.meaning? d.identifier = some d from sameMeaning.trans bound]
  rw [Expansion.paramOf?, isIdentifier, reads, Bool.and_self, if_pos rfl, belongs, Option.bind_some,
    List.find?_isSome]
  obtain ⟨index, inside, found⟩ := List.mem_iff_getElem.mp isParam
  refine ⟨(param, index), ?_, by simp [same]⟩
  rw [List.mem_reverse, List.mem_zipIdx_iff_getElem?]
  simp [inside, found]

theorem Steady.mem_mutations (steady : p.Steady) {binding : BindingId}
    (isUse : (p.tree.role id).isUse = true) (belongs : p.bindingOf? id = some binding)
    (notRead : (p.tree.role id).reads = false) :
    id ∈ (p.binding binding).mutations := by
  have linked := steady.linked
  have sound := steady.sound
  obtain ⟨d, means, stands⟩ := sound.exists_of_bindingOf? belongs
  have bound := Lexicon.meaning?_some means
  have found : p.scopes.find? d.owner d.name = some binding := by
    rw [← belongs, sound.bindingOf?_eq, means, Option.bind_some]
  have different : id ≠ d.identifier := by
    rintro rfl
    obtain ⟨y, -, declared⟩ := (linked.mem_declared steady.isTop).mp (Lexicon.binder?_some bound).1
    rw [linked.isUse_role_of_binds (linked.binds_of_mem declared)] at isUse
    cases isUse
  rcases (linked.regular steady.isTop).reads_or_writes means different with
    ⟨use, isFound, reads, -⟩ | writes
  · simp only [Tree.lexicon, Option.ite_none_right_eq_some, Tree.useAt?, Option.bind_eq_some_iff,
      Option.some.injEq] at isFound
    obtain ⟨-, _, -, -, rfl⟩ := isFound
    rw [notRead] at reads
    cases reads
  · exact ((sound.describes.mutations d binding bound found).2 id).mpr writes

theorem Steady.reads_of_template? (steady : p.Steady)
    (template : p.template? function = some expression) {binding : BindingId}
    (isUse : (p.tree.role id).isUse = true) (belongs : p.bindingOf? id = some binding)
    (declares : (p.binding binding).declaration = function)
    (kind : (p.binding binding).kind = .param) :
    (p.tree.role id).reads = true := by
  obtain ⟨d, -, stands⟩ := steady.sound.exists_of_bindingOf? belongs
  have live : p.scopes.binding binding ∈ p.scopes.live := by
    refine List.mem_map.mpr ⟨binding, List.mem_filter.mpr ⟨?_, by simp [stands.live]⟩, rfl⟩
    exact List.mem_map.mpr ⟨binding.index, List.mem_range.mpr stands.index, rfl⟩
  have unwritten := not_writes_of_template? template live kind declares
  by_contra notRead
  have written := steady.mem_mutations isUse belongs (Bool.not_eq_true _ ▸ notRead)
  rw [show (p.binding binding).mutations = [] from unwritten] at written
  cases written

theorem Steady.isSome_paramOf? (steady : p.Steady)
    (template : p.template? function = some expression)
    (isExpansion : p.expansion? function call = some e) {binding : BindingId}
    (spelled : (p.node id).identifier? = some name) (isUse : (p.tree.role id).isUse = true)
    (belongs : p.bindingOf? id = some binding)
    (declares : (p.binding binding).declaration = function)
    (kind : (p.binding binding).kind = .param) : (e.paramOf? p id).isSome = true :=
  steady.isSome_paramOf?_of_reads isExpansion (by rw [Node.isIdentifier, spelled]; rfl)
    (steady.reads_of_template? template isUse belongs declares kind) belongs declares kind

theorem isSelfRecursive_eq_false (sound : p.Sound) (apart : ∀ binding ∈ p.ownBindings function,
    ∀ use, p.tree.isWithin use function = true → p.bindingOf? use ≠ some binding ∨
      use = (p.binding binding).identifier) : p.isSelfRecursive function = false := by
  rw [isSelfRecursive, List.any_eq_false]
  intro binding own
  rw [Bool.not_eq_true, List.any_eq_false]
  intro use isReference within
  have isApart := apart binding own use within
  obtain ⟨named, belongs⟩ : ∃ named, p.bindingOf? named = some binding := by
    rw [ownBindings, List.mem_append, Option.mem_toList, Option.mem_toList, Option.bind_eq_some_iff,
      Option.bind_eq_some_iff] at own
    rcases own with ⟨named, -, belongs⟩ | ⟨parent, -, assigned⟩
    · exact ⟨named, belongs⟩
    · split at assigned
      · rw [Option.ite_none_right_eq_some] at assigned
        exact ⟨_, assigned.2⟩
      · cases assigned
  obtain ⟨d, means, stands⟩ := sound.exists_of_bindingOf? belongs
  have bound := Lexicon.meaning?_some means
  have found : p.scopes.find? d.owner d.name = some binding := by
    rw [← belongs, sound.bindingOf?_eq, means, Option.bind_some]
  have reads := ((sound.describes.references d binding bound found).2 use).mp isReference
  rcases isApart with different | isDeclared
  · rw [sound.bindingOf?_eq, Lexicon.meaning?_of_reads reads, Option.bind_some, found] at different
    exact different rfl
  · obtain ⟨_, isUse, -⟩ := reads
    have member := (Lexicon.binder?_some bound).1
    have regular := sound.rooted.linked.regular sound.rooted.isTop
    rw [isDeclared, show (p.binding binding).identifier = d.identifier from stands.identifier,
      regular.unused d member] at isUse
    cases isUse

theorem Steady.isSelfRecursive_eq_false {d : Declaration} {own : NodeId} (steady : p.Steady)
    (single : p.ownBindings function = (p.bindingOf? own).toList)
    (names : p.lexicon.meaning? own = some d) (isOwn : d.identifier = own)
    (allocated : p.tree.Allocated function) (apart : ∀ use ∈ p.tree.descendants function,
      (p.lexicon.meaning? use).all fun d => d.identifier ≠ own || use = own) :
    p.isSelfRecursive function = false := by
  refine Program.isSelfRecursive_eq_false steady.sound fun binding isNamed use within => ?_
  obtain ⟨named, belongs, stands⟩ := steady.sound.exists_of_meaning? names
  rw [single, belongs, Option.toList_some, List.mem_singleton] at isNamed
  subst isNamed
  rw [or_iff_not_imp_left, not_ne_iff]
  intro means
  have isApart := apart use ((steady.linked.mem_descendants_iff allocated).mpr within)
  obtain ⟨other, isMeant, standsFor⟩ := steady.sound.exists_of_bindingOf? means
  have same : other.identifier = own :=
    standsFor.identifier.symm.trans (stands.identifier.trans isOwn)
  rw [isMeant, Option.all_some, same] at isApart
  rw [show (p.binding binding).identifier = own from stands.identifier.trans isOwn]
  simpa using isApart

theorem writesParameters_eq_false (sound : p.Sound) (unwritten : ∀ d id, ¬p.lexicon.Writes d id) :
    p.writesParameters function = false := by
  rw [writesParameters, List.any_eq_false]
  intro b live
  obtain ⟨binding, member, rfl⟩ := List.mem_map.mp live
  rw [Scopes.liveIds, List.mem_filter, Bool.not_eq_true'] at member
  obtain ⟨⟨index, inside, rfl⟩, live⟩ := member.imp_left List.mem_map.mp
  obtain ⟨owner, name, found⟩ := sound.describes.live _ (List.mem_range.mp inside) live
  obtain ⟨d, bound, -⟩ := sound.describes.stands found
  obtain ⟨-, rfl, rfl⟩ := Lexicon.binder?_some bound
  simp [sound.mutations_eq_nil bound found (unwritten d)]

theorem Steady.template?_eq_some {f : Function NodeId} {d : Declaration} {own : NodeId}
    (steady : p.Steady) (shape : p.node function = .function f)
    (notGenerator : f.isGenerator = false) (notAsync : f.isAsync = false)
    (found : p.tree.singleReturn? function = some expression)
    (noReceiver : p.tree.usesReceiver expression = false)
    (unwritten : ∀ d id, ¬p.lexicon.Writes d id)
    (single : p.ownBindings function = (p.bindingOf? own).toList)
    (names : p.lexicon.meaning? own = some d) (isOwn : d.identifier = own)
    (apart : ∀ use ∈ p.tree.descendants function,
      (p.lexicon.meaning? use).all fun d => d.identifier ≠ own || use = own) :
    p.template? function = some expression := by
  have notRecursive := steady.isSelfRecursive_eq_false single names isOwn
    (Tree.allocated_of_node_ne (by rw [show p.tree.node function = _ from shape]; exact nofun))
    apart
  have notWritten : p.writesParameters function = false :=
    writesParameters_eq_false steady.sound unwritten
  rw [template?, shape]
  simp [Node.function?, found, noReceiver, notRecursive, notWritten, notGenerator, notAsync]

/-! ### Expanded calls -/

/-- A call has given way to an instance of a template. All of the instance is copied, or stands for
a missing argument or for the rest of the arguments. -/
structure Inlined (p after : Program) (function expression call : NodeId) (e : Expansion)
    (value : NodeId) :
    Prop where
  isExpansion : p.expansion? function call = some e
  attached : after.isAttached value = true
  place : after.tree.parent? value = p.tree.parent? call
  whole : e.Piece p after.tree expression value .returned expression value
  pieces : ∀ copy, after.tree.isWithin copy value = true →
    (∃ origin root root' id, e.Piece p after.tree expression value origin root root' ∧
      p.tree.Image after.tree root root' id copy ∧ origin.paramOf? e p id = none) ∨
    ∃ origin root root' id, e.Piece p after.tree expression value origin root root' ∧
      p.tree.Image after.tree root root' id copy ∧ (e.paramOf? p id).isSome = true ∧
        ((after.tree.node copy).tag = .identifier "undefined" ∨
          (after.tree.node copy).tag = .array [])

theorem Expanded.inlined (expanded : p.Expanded e expression call value grown after)
    (isExpansion : p.expansion? function call = some e) :
    p.Inlined after function expression call e value where
  isExpansion := isExpansion
  attached := by
    rw [isAttached_eq expanded.afterSteady.linked expanded.afterSteady.isTop.top]
    exact expanded.attachedAfter
  place := expanded.place
  whole := .returned expanded.isInstance_after
  pieces copy within := expanded.isInstance_after.exists_piece expanded.afterSteady.linked rfl
    (.returned expanded.isInstance_after) .root within

section Inlined

variable {use : Param × Nat} (inlined : p.Inlined after function expression call e value)
  (linked : p.tree.Linked) (within : p.tree.isWithin id expression = true)

include inlined linked within

theorem Inlined.exists_instance : ∃ copy, p.tree.Image after.tree expression value id copy ∧
    e.Instance p p.tree after.tree (e.paramOf? p) id copy := by
  have isIdentifier {id : NodeId} {use : Param × Nat} (isUse : e.paramOf? p id = some use) :
      (p.node id).isIdentifier = true := (Expansion.isIdentifier_of_paramOf? isUse).1
  cases inlined.whole with
  | returned isInstance =>
    obtain ⟨copy, image⟩ := isInstance.exists_image isIdentifier linked within
    exact ⟨copy, image, isInstance.image isIdentifier image⟩

variable (isUse : e.paramOf? p id = some use)

include isUse

theorem Inlined.exists_argument {argument : NodeId} (form : use.1.form = .plain)
    (given : e.arguments[use.2]? = some argument) :
    ∃ copy, p.tree.Image after.tree expression value id copy ∧
      e.Piece p after.tree expression value .argument argument copy := by
  obtain ⟨copy, image, isInstance⟩ := inlined.exists_instance linked within
  refine ⟨copy, image, ?_⟩
  rcases isInstance.cases_of_use isUse with
    ⟨other, -, same, copied⟩ | ⟨-, absent, -⟩ | ⟨isRest, -⟩ | ⟨_, isDefault, -⟩
  · rw [given, Option.some.injEq] at same
    subst same
    exact .argument inlined.whole (by decide) image isUse (List.mem_of_getElem? given) copied
  · rw [given] at absent
    cases absent
  · rw [form] at isRest
    cases isRest
  · rw [form] at isDefault
    cases isDefault

/-- Without an argument the name `undefined` stands in the place of each use of its parameter. -/
theorem Inlined.exists_missing (form : use.1.form = .plain) (absent : e.arguments[use.2]? = none) :
    ∃ copy, p.tree.Image after.tree expression value id copy ∧
      (after.node copy).identifier? = some "undefined" := by
  obtain ⟨copy, image, isInstance⟩ := inlined.exists_instance linked within
  refine ⟨copy, image, ?_⟩
  rcases isInstance.cases_of_use isUse with ⟨_, -, given, -⟩ | ⟨-, -, tag⟩ | ⟨isRest, -⟩ |
    ⟨_, isDefault, -⟩
  · rw [absent] at given
    cases given
  · rw [Program.node, ← Node.identifier?_tag, tag]
    rfl
  · rw [form] at isRest
    cases isRest
  · rw [form] at isDefault
    cases isDefault

theorem Inlined.exists_default {default : NodeId} (form : use.1.form = .defaulted default)
    (absent : e.arguments[use.2]? = none) :
    ∃ copy, p.tree.Image after.tree expression value id copy ∧
      e.Piece p after.tree expression value .default default copy := by
  obtain ⟨copy, image, isInstance⟩ := inlined.exists_instance linked within
  refine ⟨copy, image, ?_⟩
  rcases isInstance.cases_of_use isUse with ⟨_, -, given, -⟩ | ⟨isPlain, -⟩ | ⟨isRest, -⟩ |
    ⟨other, isDefault, -, expanded⟩
  · rw [absent] at given
    cases given
  · rw [form] at isPlain
    cases isPlain
  · rw [form] at isRest
    cases isRest
  · rw [form, ParamForm.defaulted.injEq] at isDefault
    subst isDefault
    exact .default inlined.whole (by decide) image isUse form expanded

end Inlined

section Template

variable (steady : p.Steady) (attached : p.isAttached function = true)
  (template : p.template? function = some expression)
  (done : SimplifyM.expandCall function expression call label ⟨p, c⟩ = .ok true w)

include steady attached template done

/-- What a call has been expanded to keeps the meanings of the names in the template. A name in a
default value has to mean the same at the call, and no scope of the template around a parameter may
declare it. -/
theorem keepsMeaning_of_template : ∃ e value, p.Inlined w.program function expression call e value ∧
    (p.Expandable e expression call → ∀ {origin root root' id copy name},
      e.Piece p w.program.tree expression value origin root root' → origin ≠ .argument →
      p.tree.Image w.program.tree root root' id copy → e.paramOf? p id = none →
      (p.node id).identifier? = some name → (p.tree.role id).isUse = true →
      (origin = .default → p.IsFreeIn id root → p.resolve? call name = p.bindingOf? id ∧
        ∀ scope, e.Shields p expression scope → p.lexicon.binder? scope name = none) →
      p.KeepsMeaning w.program root root' id copy name) := by
  obtain ⟨same, e, value, grown, isExpansion, expanded⟩ := exists_expanded steady template done
  refine ⟨e, value, expanded.inlined isExpansion, ?_⟩
  intro expandable origin root root' id copy name piece isTemplate image free spelled
    isUse isDefault
  have found := singleReturn?_of_template? template
  have placement := expanded.placement expandable attached found isExpansion
  have isSolid : origin.paramOf? e p id = none := by
    cases origin with
    | argument => exact absurd rfl isTemplate
    | returned | default => exact free
  refine expanded.keepsMeaning placement expandable piece image isSolid spelled isUse
    fun isFree _ => ?_
  cases origin with
  | argument => exact absurd rfl isTemplate
  | default => exact ⟨(isDefault rfl isFree).1, fun _ => (isDefault rfl isFree).2⟩
  | returned =>
    refine ⟨?_, fun different => absurd rfl different⟩
    cases piece
    have linked := steady.linked
    rcases of_meansSameAt linked (linked.allocated_of_singleReturn? found) same
      (image.isWithin linked) spelled isUse with ⟨binding, belongs, own⟩ | same
    · rw [isTemplateOwn, Bool.or_eq_true, Bool.and_eq_true, decide_eq_true_eq, decide_eq_true_eq]
        at own
      rcases own with ⟨declares, kind⟩ | within
      · have isUsed := steady.isSome_paramOf? template isExpansion spelled isUse
          belongs declares kind
        rw [free] at isUsed
        cases isUsed
      · obtain ⟨d, means, stands⟩ := steady.sound.exists_of_bindingOf? belongs
        obtain ⟨y, -, declared⟩ := (linked.mem_declared steady.isTop).mp
          (Lexicon.binder?_some (Lexicon.meaning?_some means)).1
        have inside := expandable.template.isWithin_owner_of_declaration linked
          steady.wellBound declared (stands.declaration ▸ within)
        rw [isFree d means] at inside
        cases inside
    · exact same

end Template

/--
The tree of `function f(a = y) { return a; } function g(…) { return f(); }` with one parameter. -/
def defaulted (param : String) : Tree :=
  ⟨#[⟨.identifier "f", some ⟨7⟩⟩, ⟨.identifier "a", some ⟨3⟩⟩, ⟨.identifier "y", some ⟨3⟩⟩,
    ⟨.assignmentPattern ⟨1⟩ ⟨2⟩, some ⟨7⟩⟩, ⟨.identifier "a", some ⟨5⟩⟩,
    ⟨.return_ (some ⟨4⟩), some ⟨6⟩⟩, ⟨.block [⟨5⟩], some ⟨7⟩⟩,
    ⟨.function ⟨.declaration, some ⟨0⟩, [⟨3⟩], ⟨6⟩, false, false⟩, some ⟨15⟩⟩,
    ⟨.identifier "g", some ⟨14⟩⟩, ⟨.identifier param, some ⟨14⟩⟩, ⟨.identifier "f", some ⟨11⟩⟩,
    ⟨.call ⟨10⟩ [], some ⟨12⟩⟩, ⟨.return_ (some ⟨11⟩), some ⟨13⟩⟩, ⟨.block [⟨12⟩], some ⟨14⟩⟩,
    ⟨.function ⟨.declaration, some ⟨8⟩, [⟨9⟩], ⟨13⟩, false, false⟩, some ⟨15⟩⟩,
    ⟨.program [⟨7⟩, ⟨14⟩], none⟩]⟩

theorem lexicon_defaulted {param : String} (isParam : param = "y" ∨ param = "z") :
    let l := (defaulted param).lexicon ⟨15⟩
    l.meaning? ⟨0⟩ = some ⟨⟨15⟩, "f", .function, ⟨7⟩, ⟨0⟩⟩ ∧
      l.meaning? ⟨1⟩ = some ⟨⟨7⟩, "a", .param, ⟨7⟩, ⟨1⟩⟩ ∧
      l.meaning? ⟨4⟩ = some ⟨⟨7⟩, "a", .param, ⟨7⟩, ⟨1⟩⟩ ∧ l.meaning? ⟨2⟩ = none ∧
      (∀ d ∈ l.declared, l.binder? d.owner d.name = some d) ∧
      (∀ use ∈ (defaulted param).descendants ⟨7⟩,
        (l.meaning? use).all fun d => d.identifier ≠ ⟨0⟩ || use = ⟨0⟩) ∧
      (∀ id ∈ (defaulted param).descendants ⟨15⟩, ((defaulted param).role id).writes = false) ∧
      (defaulted param).usesReceiver ⟨4⟩ = false := by
  rcases isParam with rfl | rfl <;> decide

theorem exists_expandCall_defaulted {param : String} (isParam : param = "y" ∨ param = "z") :
    ∃ p w, ofTree (defaulted param) ⟨15⟩ = .ok p ∧ p.Steady ∧ p.tree = defaulted param ∧
      p.root = ⟨15⟩ ∧
      p.template? ⟨7⟩ = some ⟨4⟩ ∧
      SimplifyM.expandCall ⟨7⟩ ⟨4⟩ ⟨11⟩ "f" ⟨p, default⟩ = .ok true w ∧
      ∃ binding, p.bindingOf? ⟨4⟩ = some binding ∧
        p.expansion? ⟨7⟩ ⟨11⟩ = some ⟨[⟨some binding, .defaulted ⟨2⟩⟩], []⟩ := by
  have checks : (defaulted param).checks = true := rfl
  have isTop : (defaulted param).IsTop ⟨15⟩ := ⟨Nat.lt_succ_self 15, rfl⟩
  obtain ⟨scopes, made, steady⟩ := exists_steady (defaulted param) ⟨15⟩
    (Tree.linked_of_checks checks) isTop (Tree.wellBound_of_bindsWell rfl) rfl
  have facts := lexicon_defaulted isParam
  set p : Program := ⟨defaulted param, ⟨15⟩, scopes, false⟩ with isProgram
  change let l := p.lexicon; _ at facts
  obtain ⟨atName, atParam, atUse, atDefault, single, apart, reading, noReceiver⟩ := facts
  have linked := steady.linked
  obtain ⟨binding, paramBelongs, stands⟩ := steady.sound.exists_of_meaning? atParam
  have useBelongs : p.bindingOf? ⟨4⟩ = some binding := by
    rw [steady.sound.bindingOf?_eq, atUse, ← atParam, ← steady.sound.bindingOf?_eq, paramBelongs]
  have unbound : p.bindingOf? ⟨2⟩ = none := steady.sound.bindingOf?_eq_none_iff.mpr atDefault
  have template : p.template? ⟨7⟩ = some ⟨4⟩ := steady.template?_eq_some rfl rfl rfl rfl noReceiver
    (not_writes linked steady.isTop reading single) (List.append_nil _) atName rfl apart
  have isExpansion : p.expansion? ⟨7⟩ ⟨11⟩ = some ⟨[⟨some binding, .defaulted ⟨2⟩⟩], []⟩ := by
    rw [← paramBelongs]
    rfl
  have isOwn : p.isTemplateOwn ⟨7⟩ ⟨4⟩ binding = true := by
    rw [isTemplateOwn, show (p.binding binding).declaration = ⟨7⟩ from stands.declaration,
      show (p.binding binding).kind = .param from stands.kind]
    rfl
  have same : p.meansSameAt ⟨7⟩ ⟨4⟩ ⟨11⟩ = true := by
    have atHole : p.meansSameAt ⟨7⟩ ⟨4⟩ ⟨11⟩ = (((p.bindingOf? ⟨4⟩).any (p.isTemplateOwn ⟨7⟩ ⟨4⟩) ||
        p.resolve? ⟨11⟩ "a" = p.bindingOf? ⟨4⟩) && true) := rfl
    rw [atHole, useBelongs, Option.any_some, isOwn]
    rfl
  have nests : Expansion.Nests ⟨[⟨some binding, .defaulted ⟨2⟩⟩], []⟩ p 65 ⟨4⟩ := by
    intro id use default _ isUse form _ inner use' default' within isInnerUse
    have member := Expansion.mem_params_of_paramOf? isUse
    rw [List.mem_singleton.mp member, ParamForm.defaulted.injEq] at form
    subst form
    have allocated : p.tree.Allocated ⟨2⟩ := Nat.lt_of_sub_pos (Nat.zero_lt_succ 13)
    rw [← linked.mem_descendants_iff allocated,
      show p.tree.descendants ⟨2⟩ = [⟨2⟩] from rfl, List.mem_singleton] at within
    rw [within, Expansion.paramOf?, unbound] at isInnerUse
    simp at isInnerUse
  have attached : p.tree.isWithin ⟨11⟩ p.root = true := rfl
  obtain ⟨w, done⟩ := exists_expandCall steady isExpansion attached rfl same nests "f" default
  exact ⟨p, w, made, steady, rfl, rfl, template, done, binding, useBelongs, isExpansion⟩

theorem expandable_defaulted {param : String} (binding : Option BindingId)
    (isTree : p.tree = defaulted param) :
    p.Expandable ⟨[⟨binding, .defaulted ⟨2⟩⟩], []⟩ ⟨4⟩ ⟨11⟩ where
  isSealed := .inert (by rw [isTree]; rfl) fun child member => by
    rw [isTree] at member
    rw [show child = ⟨10⟩ from List.mem_singleton.mp member]
    exact .inert (by rw [isTree]; rfl) fun _ none => by rw [isTree] at none; cases none
  template := .inert (by rw [isTree]; rfl) fun _ none => by rw [isTree] at none; cases none
  defaults param member default form := by
    rw [List.mem_singleton.mp member, ParamForm.defaulted.injEq] at form
    subst form
    exact .inert (by rw [isTree]; rfl) fun _ none => by rw [isTree] at none; cases none
  outside := by rw [isTree]; rfl

theorem paramOf?_defaulted {binding : BindingId} {param : String}
    (isTree : p.tree = defaulted param) (belongs : p.bindingOf? ⟨4⟩ = some binding) :
    Expansion.paramOf? ⟨[⟨some binding, .defaulted ⟨2⟩⟩], []⟩ p ⟨4⟩ =
      some (⟨some binding, .defaulted ⟨2⟩⟩, 0) := by
  have reads : ((p.node ⟨4⟩).isIdentifier && (p.tree.role ⟨4⟩).reads) = true := by
    rw [node, isTree]; rfl
  rw [Expansion.paramOf?, if_pos reads, belongs]
  simp

theorem Inlined.default_defaulted {binding : BindingId} {param : String} (steady : p.Steady)
    (isTree : p.tree = defaulted param) (belongs : p.bindingOf? ⟨4⟩ = some binding)
    (isExpansion : p.expansion? ⟨7⟩ ⟨11⟩ = some ⟨[⟨some binding, .defaulted ⟨2⟩⟩], []⟩)
    (inlined : p.Inlined after ⟨7⟩ ⟨4⟩ ⟨11⟩ e value) :
    e = ⟨[⟨some binding, .defaulted ⟨2⟩⟩], []⟩ ∧
    ∃ copy, p.tree.Image after.tree ⟨4⟩ value ⟨4⟩ copy ∧
      e.Piece p after.tree ⟨4⟩ value .default ⟨2⟩ copy := by
  have same := Option.some.inj (inlined.isExpansion.symm.trans isExpansion)
  subst same
  exact ⟨rfl, inlined.exists_default steady.linked Tree.isWithin_self
    (paramOf?_defaulted isTree belongs) rfl rfl⟩

theorem exists_keepsMeaning_of_template :
    ∃ p w e value copy, ofTree (defaulted "z") ⟨15⟩ = .ok p ∧ p.Steady ∧
      p.template? ⟨7⟩ = some ⟨4⟩ ∧ SimplifyM.expandCall ⟨7⟩ ⟨4⟩ ⟨11⟩ "f" ⟨p, default⟩ = .ok true w ∧
        p.Inlined w.program ⟨7⟩ ⟨4⟩ ⟨11⟩ e value ∧ p.Expandable e ⟨4⟩ ⟨11⟩ ∧
          e.Piece p w.program.tree ⟨4⟩ value .default ⟨2⟩ copy ∧
          p.KeepsMeaning w.program ⟨2⟩ copy ⟨2⟩ copy "y" := by
  obtain ⟨p, w, made, steady, isTree, isRoot, template, done, binding, belongs, isExpansion⟩ :=
    exists_expandCall_defaulted (.inr rfl)
  have attached : p.isAttached ⟨7⟩ = true := by rw [isAttached, isTree, isRoot]; rfl
  obtain ⟨e, value, inlined, keeps⟩ := keepsMeaning_of_template steady attached template done
  obtain ⟨rfl, copy, -, piece⟩ := inlined.default_defaulted steady isTree belongs isExpansion
  have expandable := expandable_defaulted (some binding) isTree
  refine ⟨p, w, _, value, copy, made, steady, template, done, inlined, expandable, piece, ?_⟩
  have undeclared : ∀ d ∈ p.lexicon.declared, d.name ≠ "y" := by
    rw [lexicon, isTree, isRoot]
    decide
  have unbound : p.bindingOf? ⟨2⟩ = none := by
    rw [steady.sound.bindingOf?_eq_none_iff, lexicon, isTree, isRoot]
    decide
  refine keeps expandable piece (by decide) .root ?_ (by rw [node, isTree]; rfl)
    (by rw [isTree]; rfl) fun _ _ => ?_
  · rw [Expansion.paramOf?, unbound]
    simp
  · constructor
    · have nothing : p.lexicon.look? (p.tree.sight ⟨11⟩) "y" = none := by
        rw [lexicon, isTree, isRoot]; decide
      rw [unbound, steady.sound.resolve?_eq (by rw [isTree, isRoot]; rfl), nothing]
      rfl
    · exact fun scope _ => Lexicon.binder?_eq_none_of_undeclared undeclared scope

/-- A name in a default value is captured at the call. -/
theorem exists_not_keepsMeaning_of_template :
    ∃ p w e value copy, ofTree (defaulted "y") ⟨15⟩ = .ok p ∧ p.Steady ∧
      p.template? ⟨7⟩ = some ⟨4⟩ ∧ SimplifyM.expandCall ⟨7⟩ ⟨4⟩ ⟨11⟩ "f" ⟨p, default⟩ = .ok true w ∧
        p.Inlined w.program ⟨7⟩ ⟨4⟩ ⟨11⟩ e value ∧
        e.Piece p w.program.tree ⟨4⟩ value .default ⟨2⟩ copy ∧ p.isUnbound ⟨2⟩ "y" = true ∧
          ¬p.KeepsMeaning w.program ⟨2⟩ copy ⟨2⟩ copy "y" := by
  obtain ⟨p, w, made, steady, isTree, isRoot, template, done, binding, belongs, isExpansion⟩ :=
    exists_expandCall_defaulted (.inl rfl)
  have attached : p.isAttached ⟨7⟩ = true := by rw [isAttached, isTree, isRoot]; rfl
  obtain ⟨same, e, value, grown, isExpansion', expanded⟩ := exists_expanded steady template done
  have inlined := expanded.inlined isExpansion'
  obtain ⟨rfl, copy, image, piece⟩ := inlined.default_defaulted steady isTree belongs isExpansion
  have expandable := expandable_defaulted (some binding) isTree
  have placement := expanded.placement expandable attached (singleReturn?_of_template? template)
    isExpansion
  refine ⟨p, w, _, value, copy, made, steady, template, done, inlined, piece, ?_, ?_⟩
  · have unbound : p.lexicon.look? (p.tree.sight ⟨2⟩) "y" = none := by
      rw [lexicon, isTree, isRoot]; decide
    rwa [steady.sound.isUnbound_iff (by rw [isTree, isRoot]; rfl)]
  · have isUse : (Expansion.paramOf? ⟨[⟨some binding, .defaulted ⟨2⟩⟩], []⟩ p ⟨4⟩).isSome =
        true := by
      rw [paramOf?_defaulted isTree belongs]
      rfl
    have unbound : p.bindingOf? ⟨2⟩ = none := by
      rw [steady.sound.bindingOf?_eq_none_iff, lexicon, isTree, isRoot]
      decide
    have spelled : (w.program.node copy).identifier? = some "y" := by
      obtain ⟨f, mirrors, -⟩ := piece.isInstance.exists_mirrors
        (by simp [Expansion.Origin.paramOf?, Expansion.paramOf?, unbound])
      rw [node, mirrors.identifier?, isTree]
      rfl
    have declared : (p.lexicon.look? (p.tree.scopesAround ⟨11⟩) "y").isSome = true := by
      rw [lexicon, isTree, isRoot]
      decide
    obtain rfl : copy = value := (image.eq_root_iff steady.linked expanded.afterSteady.linked).mpr
      rfl
    exact not_keepsMeaning (expanded.isSome_resolve?_value placement expandable isUse spelled
      declared) unbound

section Arguments

variable (steady : p.Steady) (attached : p.isAttached function = true)
  (template : p.template? function = some expression)
  (done : SimplifyM.expandCall function expression call label ⟨p, c⟩ = .ok true w)

include steady attached template done

/-- What a call has been expanded to keeps the meanings of the names in the arguments that no scope
of the template around a parameter declares, and `undefined` stays unbound for missing arguments. -/
theorem keepsMeaning_of_arguments :
    ∃ e value, p.Inlined w.program function expression call e value ∧
      (p.Expandable e expression call →
        (∀ {root root' id copy name}, e.Piece p w.program.tree expression value
          .argument root root' →
          p.tree.Image w.program.tree root root' id copy → (p.node id).identifier? = some name →
          (p.tree.role id).isUse = true →
          (p.IsFreeIn id root → ∀ scope, e.Shields p expression scope →
            p.lexicon.binder? scope name = none) →
          p.KeepsMeaning w.program root root' id copy name) ∧
        (p.isUnbound call "undefined" = true →
          (∀ scope, e.Shields p expression scope → p.lexicon.binder? scope "undefined" = none) →
          ∀ {origin root root' id hole}, e.Piece p w.program.tree expression value
            origin root root' →
            origin ≠ .argument → p.tree.Image w.program.tree root root' id hole →
            (e.paramOf? p id).isSome = true →
            (w.program.node hole).identifier? = some "undefined" →
            w.program.isUnbound hole "undefined" = true)) := by
  obtain ⟨same, e, value, grown, isExpansion, expanded⟩ := exists_expanded steady template done
  refine ⟨e, value, expanded.inlined isExpansion, fun expandable => ?_⟩
  have placement := expanded.placement expandable attached (singleReturn?_of_template? template)
    isExpansion
  constructor
  · intro root root' id copy name piece image spelled isUse clear
    refine expanded.keepsMeaning placement expandable piece image rfl spelled isUse
      fun isFree means => ?_
    refine ⟨expanded.resolve?_of_argument expandable ?_ means, fun _ => clear isFree⟩
    cases piece with
    | argument _ _ _ _ given | element _ _ _ _ _ _ given => exact given
  · intro unbound clear origin root root' id hole piece isTemplate image isUse isUndefined
    exact expanded.isUnbound_hole placement expandable piece isTemplate image isUse
      isUndefined unbound clear

end Arguments

/--
The tree of `function f(x) { return function (…) { return x; }; } f(y);` with one inner parameter.
-/
def wrapped (param : String) : Tree :=
  ⟨#[⟨.identifier "f", some ⟨9⟩⟩, ⟨.identifier "x", some ⟨9⟩⟩, ⟨.identifier param, some ⟨6⟩⟩,
    ⟨.identifier "x", some ⟨4⟩⟩, ⟨.return_ (some ⟨3⟩), some ⟨5⟩⟩, ⟨.block [⟨4⟩], some ⟨6⟩⟩,
    ⟨.function ⟨.expression, none, [⟨2⟩], ⟨5⟩, false, false⟩, some ⟨7⟩⟩,
    ⟨.return_ (some ⟨6⟩), some ⟨8⟩⟩, ⟨.block [⟨7⟩], some ⟨9⟩⟩,
    ⟨.function ⟨.declaration, some ⟨0⟩, [⟨1⟩], ⟨8⟩, false, false⟩, some ⟨14⟩⟩,
    ⟨.identifier "f", some ⟨12⟩⟩, ⟨.identifier "y", some ⟨12⟩⟩, ⟨.call ⟨10⟩ [⟨11⟩], some ⟨13⟩⟩,
    ⟨.expressionStatement ⟨12⟩, some ⟨14⟩⟩, ⟨.program [⟨9⟩, ⟨13⟩], none⟩]⟩

theorem lexicon_wrapped {param : String} (isParam : param = "y" ∨ param = "z") :
    let l := (wrapped param).lexicon ⟨14⟩
    l.meaning? ⟨0⟩ = some ⟨⟨14⟩, "f", .function, ⟨9⟩, ⟨0⟩⟩ ∧
      l.meaning? ⟨1⟩ = some ⟨⟨9⟩, "x", .param, ⟨9⟩, ⟨1⟩⟩ ∧
      l.meaning? ⟨3⟩ = some ⟨⟨9⟩, "x", .param, ⟨9⟩, ⟨1⟩⟩ ∧ l.meaning? ⟨11⟩ = none ∧
      (∀ d ∈ l.declared, l.binder? d.owner d.name = some d) ∧
      (∀ use ∈ (wrapped param).descendants ⟨9⟩,
        (l.meaning? use).all fun d => d.identifier ≠ ⟨0⟩ || use = ⟨0⟩) ∧
      (∀ id ∈ (wrapped param).descendants ⟨14⟩, ((wrapped param).role id).writes = false) ∧
      (wrapped param).usesReceiver ⟨6⟩ = false := by
  rcases isParam with rfl | rfl <;> decide

theorem exists_expandCall_wrapped {param : String} (isParam : param = "y" ∨ param = "z") :
    ∃ p w, ofTree (wrapped param) ⟨14⟩ = .ok p ∧ p.Steady ∧ p.tree = wrapped param ∧ p.root = ⟨14⟩ ∧
      p.template? ⟨9⟩ = some ⟨6⟩ ∧
      SimplifyM.expandCall ⟨9⟩ ⟨6⟩ ⟨12⟩ "f" ⟨p, default⟩ = .ok true w ∧
      ∃ binding, p.bindingOf? ⟨3⟩ = some binding ∧
        p.expansion? ⟨9⟩ ⟨12⟩ = some ⟨[⟨some binding, .plain⟩], [⟨11⟩]⟩ := by
  have checks : (wrapped param).checks = true := rfl
  have isTop : (wrapped param).IsTop ⟨14⟩ := ⟨Nat.lt_succ_self 14, rfl⟩
  obtain ⟨scopes, made, steady⟩ := exists_steady (wrapped param) ⟨14⟩ (Tree.linked_of_checks checks)
    isTop (Tree.wellBound_of_bindsWell rfl) rfl
  have facts := lexicon_wrapped isParam
  set p : Program := ⟨wrapped param, ⟨14⟩, scopes, false⟩ with isProgram
  change let l := p.lexicon; _ at facts
  obtain ⟨atName, atParam, atUse, -, single, apart, reading, noReceiver⟩ := facts
  have linked := steady.linked
  obtain ⟨binding, paramBelongs, stands⟩ := steady.sound.exists_of_meaning? atParam
  have useBelongs : p.bindingOf? ⟨3⟩ = some binding := by
    rw [steady.sound.bindingOf?_eq, atUse, ← atParam, ← steady.sound.bindingOf?_eq, paramBelongs]
  have template : p.template? ⟨9⟩ = some ⟨6⟩ := steady.template?_eq_some rfl rfl rfl rfl noReceiver
    (not_writes linked steady.isTop reading single) (List.append_nil _) atName rfl apart
  have isExpansion : p.expansion? ⟨9⟩ ⟨12⟩ = some ⟨[⟨some binding, .plain⟩], [⟨11⟩]⟩ := by
    rw [← paramBelongs]
    rfl
  have isOwn : p.isTemplateOwn ⟨9⟩ ⟨6⟩ binding = true := by
    rw [isTemplateOwn, show (p.binding binding).declaration = ⟨9⟩ from stands.declaration,
      show (p.binding binding).kind = .param from stands.kind]
    rfl
  have same : p.meansSameAt ⟨9⟩ ⟨6⟩ ⟨12⟩ = true := by
    have atHole : p.meansSameAt ⟨9⟩ ⟨6⟩ ⟨12⟩ = (((p.bindingOf? ⟨3⟩).any (p.isTemplateOwn ⟨9⟩ ⟨6⟩) ||
        p.resolve? ⟨12⟩ "x" = p.bindingOf? ⟨3⟩) && true) := rfl
    rw [atHole, useBelongs, Option.any_some, isOwn]
    rfl
  have nests : Expansion.Nests ⟨[⟨some binding, .plain⟩], [⟨11⟩]⟩ p 65 ⟨6⟩ :=
    Expansion.nests_of_plain (by simp) 64 _
  have attached : p.tree.isWithin ⟨12⟩ p.root = true := rfl
  obtain ⟨w, done⟩ := exists_expandCall steady isExpansion attached rfl same nests "f" default
  exact ⟨p, w, made, steady, rfl, rfl, template, done, binding, useBelongs, isExpansion⟩

theorem expandable_wrapped {param : String} (binding : Option BindingId)
    (isTree : p.tree = wrapped param) :
    p.Expandable ⟨[⟨binding, .plain⟩], [⟨11⟩]⟩ ⟨6⟩ ⟨12⟩ where
  isSealed := .inert (by rw [isTree]; rfl) fun child member => by
    rw [isTree] at member
    obtain rfl | rfl | impossible : child = ⟨10⟩ ∨ child = ⟨11⟩ ∨ child ∈ [] := by
      simpa using (show child ∈ [⟨10⟩, ⟨11⟩] from member)
    · exact .inert (by rw [isTree]; rfl) fun _ none => by rw [isTree] at none; cases none
    · exact .inert (by rw [isTree]; rfl) fun _ none => by rw [isTree] at none; cases none
    · cases impossible
  template := .function (f := ⟨.expression, none, [⟨2⟩], ⟨5⟩, false, false⟩)
    (by rw [isTree]; rfl) rfl
  defaults param member default form := by
    rw [List.mem_singleton.mp member] at form
    cases form
  outside := by rw [isTree]; rfl

theorem paramOf?_wrapped {binding : BindingId} {param : String} (isTree : p.tree = wrapped param)
    (belongs : p.bindingOf? ⟨3⟩ = some binding) :
    Expansion.paramOf? ⟨[⟨some binding, .plain⟩], [⟨11⟩]⟩ p ⟨3⟩ =
      some (⟨some binding, .plain⟩, 0) := by
  have reads : ((p.node ⟨3⟩).isIdentifier && (p.tree.role ⟨3⟩).reads) = true := by
    rw [node, isTree]; rfl
  rw [Expansion.paramOf?, if_pos reads, belongs]
  simp

theorem Inlined.exists_argument_wrapped {binding : BindingId} {param : String} (steady : p.Steady)
    (isTree : p.tree = wrapped param) (belongs : p.bindingOf? ⟨3⟩ = some binding)
    (isExpansion : p.expansion? ⟨9⟩ ⟨12⟩ = some ⟨[⟨some binding, .plain⟩], [⟨11⟩]⟩)
    (inlined : p.Inlined after ⟨9⟩ ⟨6⟩ ⟨12⟩ e value) :
    e = ⟨[⟨some binding, .plain⟩], [⟨11⟩]⟩ ∧ ∃ copy, p.tree.Image after.tree ⟨6⟩ value ⟨3⟩ copy ∧
      e.Piece p after.tree ⟨6⟩ value .argument ⟨11⟩ copy := by
  have same := Option.some.inj (inlined.isExpansion.symm.trans isExpansion)
  subst same
  have within : p.tree.isWithin ⟨3⟩ ⟨6⟩ = true := by rw [isTree]; rfl
  exact ⟨rfl, inlined.exists_argument steady.linked within (paramOf?_wrapped isTree belongs) rfl
    rfl⟩

/-- The tree of `function f(x) { return x; } f();`. -/
def lacking : Tree :=
  ⟨#[⟨.identifier "f", some ⟨5⟩⟩, ⟨.identifier "x", some ⟨5⟩⟩, ⟨.identifier "x", some ⟨3⟩⟩,
    ⟨.return_ (some ⟨2⟩), some ⟨4⟩⟩, ⟨.block [⟨3⟩], some ⟨5⟩⟩,
    ⟨.function ⟨.declaration, some ⟨0⟩, [⟨1⟩], ⟨4⟩, false, false⟩, some ⟨9⟩⟩,
    ⟨.identifier "f", some ⟨7⟩⟩, ⟨.call ⟨6⟩ [], some ⟨8⟩⟩, ⟨.expressionStatement ⟨7⟩, some ⟨9⟩⟩,
    ⟨.program [⟨5⟩, ⟨8⟩], none⟩]⟩

theorem exists_expandCall_lacking :
    ∃ p w binding, ofTree lacking ⟨9⟩ = .ok p ∧ p.Steady ∧ p.tree = lacking ∧
      p.root = ⟨9⟩ ∧ p.template? ⟨5⟩ = some ⟨2⟩ ∧
        SimplifyM.expandCall ⟨5⟩ ⟨2⟩ ⟨7⟩ "f" ⟨p, default⟩ = .ok true w ∧
          p.expansion? ⟨5⟩ ⟨7⟩ = some ⟨[⟨some binding, .plain⟩], []⟩ ∧
          Expansion.paramOf? ⟨[⟨some binding, .plain⟩], []⟩ p ⟨2⟩ =
            some (⟨some binding, .plain⟩, 0) := by
  have linked : lacking.Linked := Tree.linked_of_checks (by decide)
  have isTop : lacking.IsTop ⟨9⟩ := ⟨by decide, by decide⟩
  obtain ⟨scopes, made, steady⟩ := exists_steady lacking ⟨9⟩ linked isTop
    (Tree.wellBound_of_bindsWell (by decide)) rfl
  have names : (lacking.lexicon ⟨9⟩).meaning? ⟨0⟩ = some ⟨⟨9⟩, "f", .function, ⟨5⟩, ⟨0⟩⟩ := by
    decide
  have isParam : (lacking.lexicon ⟨9⟩).meaning? ⟨1⟩ = some ⟨⟨5⟩, "x", .param, ⟨5⟩, ⟨1⟩⟩ := by decide
  have apart : ∀ use ∈ lacking.descendants ⟨5⟩,
      ((lacking.lexicon ⟨9⟩).meaning? use).all fun d => d.identifier ≠ ⟨0⟩ || use = ⟨0⟩ := by decide
  have unwritten := not_writes linked isTop (by decide) (by decide)
  set p : Program := ⟨lacking, ⟨9⟩, scopes, false⟩ with isProgram
  obtain ⟨binding, stands, -, belongs⟩ := steady.sound.exists_unwritten (unwritten _) isParam
  have template : p.template? ⟨5⟩ = some ⟨2⟩ :=
    steady.template?_eq_some rfl rfl rfl rfl rfl unwritten (List.append_nil _) names rfl apart
  have useBelongs : p.bindingOf? ⟨2⟩ = some binding :=
    belongs ⟨2⟩
      (show (lacking.lexicon ⟨9⟩).meaning? ⟨2⟩ = some ⟨⟨5⟩, "x", .param, ⟨5⟩, ⟨1⟩⟩ by decide)
  have isExpansion : p.expansion? ⟨5⟩ ⟨7⟩ = some ⟨[⟨some binding, .plain⟩], []⟩ := by
    rw [← belongs ⟨1⟩ isParam]
    rfl
  have isOwn : p.isTemplateOwn ⟨5⟩ ⟨2⟩ binding = true := by
    rw [isTemplateOwn, show (p.binding binding).declaration = ⟨5⟩ from stands.declaration,
      show (p.binding binding).kind = .param from stands.kind]
    rfl
  have same : p.meansSameAt ⟨5⟩ ⟨2⟩ ⟨7⟩ = true := by
    have atHole : p.meansSameAt ⟨5⟩ ⟨2⟩ ⟨7⟩ = (((p.bindingOf? ⟨2⟩).any (p.isTemplateOwn ⟨5⟩ ⟨2⟩) ||
        p.resolve? ⟨7⟩ "x" = p.bindingOf? ⟨2⟩) && true) := rfl
    rw [atHole, useBelongs, Option.any_some, isOwn]
    rfl
  have isUse : Expansion.paramOf? ⟨[⟨some binding, .plain⟩], []⟩ p ⟨2⟩ =
      some (⟨some binding, .plain⟩, 0) := by
    rw [Expansion.paramOf?,
      if_pos (show ((p.node ⟨2⟩).isIdentifier && (p.tree.role ⟨2⟩).reads) = true from rfl),
      useBelongs]
    simp
  obtain ⟨w, done⟩ := exists_expandCall steady isExpansion rfl rfl same
    (Expansion.nests_of_plain (by simp) 64 _) "f" default
  exact ⟨p, w, binding, made, steady, rfl, rfl, template, done, isExpansion, isUse⟩

theorem expandable_lacking (binding : Option BindingId) (isTree : p.tree = lacking) :
    p.Expandable ⟨[⟨binding, .plain⟩], []⟩ ⟨2⟩ ⟨7⟩ where
  isSealed := .inert (by rw [isTree]; rfl) fun child member => by
    rw [isTree] at member
    rw [show child = ⟨6⟩ from List.mem_singleton.mp member]
    exact .inert (by rw [isTree]; rfl) fun _ none => by rw [isTree] at none; cases none
  template := .inert (by rw [isTree]; rfl) fun _ none => by rw [isTree] at none; cases none
  defaults param member default form := by
    rw [List.mem_singleton.mp member] at form
    cases form
  outside := by rw [isTree]; rfl

/-- A name in an argument keeps its meaning in `wrapped`. In `lacking` there is no argument, and
`undefined`, which stands for the parameter instead, means nothing. -/
theorem exists_keepsMeaning_of_arguments :
    (∃ p w e value copy, ofTree (wrapped "z") ⟨14⟩ = .ok p ∧ p.Steady ∧ p.template? ⟨9⟩ = some ⟨6⟩ ∧
      SimplifyM.expandCall ⟨9⟩ ⟨6⟩ ⟨12⟩ "f" ⟨p, default⟩ = .ok true w ∧
      p.Inlined w.program ⟨9⟩ ⟨6⟩ ⟨12⟩ e value ∧ p.Expandable e ⟨6⟩ ⟨12⟩ ∧
        e.Piece p w.program.tree ⟨6⟩ value .argument ⟨11⟩ copy ∧
          p.KeepsMeaning w.program ⟨11⟩ copy ⟨11⟩ copy "y") ∧
    ∃ p w e value hole, ofTree lacking ⟨9⟩ = .ok p ∧ p.Steady ∧ p.template? ⟨5⟩ = some ⟨2⟩ ∧
      SimplifyM.expandCall ⟨5⟩ ⟨2⟩ ⟨7⟩ "f" ⟨p, default⟩ = .ok true w ∧
      p.Inlined w.program ⟨5⟩ ⟨2⟩ ⟨7⟩ e value ∧ p.Expandable e ⟨2⟩ ⟨7⟩ ∧
        p.tree.Image w.program.tree ⟨2⟩ value ⟨2⟩ hole ∧
        (w.program.node hole).identifier? = some "undefined" ∧
        w.program.isUnbound hole "undefined" = true := by
  constructor
  · obtain ⟨p, w, made, steady, isTree, isRoot, template, done, binding, belongs, isExpansion⟩ :=
      exists_expandCall_wrapped (.inr rfl)
    have attached : p.isAttached ⟨9⟩ = true := by rw [isAttached, isTree, isRoot]; rfl
    obtain ⟨e, value, inlined, keeps⟩ := keepsMeaning_of_arguments steady attached template done
    obtain ⟨rfl, copy, -, piece⟩ := inlined.exists_argument_wrapped steady isTree
      belongs isExpansion
    have expandable := expandable_wrapped (some binding) isTree
    refine ⟨p, w, _, value, copy, made, steady, template, done, inlined, expandable, piece, ?_⟩
    refine (keeps expandable).1 piece .root (by rw [node, isTree]; rfl) (by rw [isTree]; rfl)
      fun _ scope _ =>
        Lexicon.binder?_eq_none_of_undeclared ?_ scope
    rw [lexicon, isTree, isRoot]
    decide
  · obtain ⟨p, w, binding, made, steady, isTree, isRoot, template, done, isExpansion, isUse⟩ :=
      exists_expandCall_lacking
    have attached : p.isAttached ⟨5⟩ = true := by rw [isAttached, isTree, isRoot]; rfl
    obtain ⟨e, value, inlined, keeps⟩ := keepsMeaning_of_arguments steady attached template done
    obtain rfl := Option.some.inj (inlined.isExpansion.symm.trans isExpansion)
    obtain ⟨hole, image, isUndefined⟩ := inlined.exists_missing steady.linked
      Tree.isWithin_self isUse rfl rfl
    have expandable := expandable_lacking (some binding) isTree
    have undeclared : ∀ d ∈ p.lexicon.declared, d.name ≠ "undefined" := by
      rw [lexicon, isTree, isRoot]
      decide
    have unbound : p.isUnbound ⟨7⟩ "undefined" = true := by
      rw [steady.sound.isUnbound_iff (by rw [isTree, isRoot]; rfl), lexicon, isTree, isRoot]
      decide
    exact ⟨p, w, _, value, hole, made, steady, template, done, inlined, expandable,
      image, isUndefined,
      (keeps expandable).2 unbound
        (fun scope _ => Lexicon.binder?_eq_none_of_undeclared undeclared scope)
        inlined.whole (by decide) image (by rw [isUse]; rfl) isUndefined⟩

/-- A function of a template captures a name in an argument. -/
theorem exists_not_keepsMeaning_of_arguments :
    ∃ p w e value copy, ofTree (wrapped "y") ⟨14⟩ = .ok p ∧ p.Steady ∧
      p.template? ⟨9⟩ = some ⟨6⟩ ∧ SimplifyM.expandCall ⟨9⟩ ⟨6⟩ ⟨12⟩ "f" ⟨p, default⟩ = .ok true w ∧
        p.Inlined w.program ⟨9⟩ ⟨6⟩ ⟨12⟩ e value ∧
        e.Piece p w.program.tree ⟨6⟩ value .argument ⟨11⟩ copy ∧ p.isUnbound ⟨11⟩ "y" = true ∧
          ¬p.KeepsMeaning w.program ⟨11⟩ copy ⟨11⟩ copy "y" := by
  obtain ⟨p, w, made, steady, isTree, isRoot, template, done, binding, belongs, isExpansion⟩ :=
    exists_expandCall_wrapped (.inl rfl)
  have attached : p.isAttached ⟨9⟩ = true := by rw [isAttached, isTree, isRoot]; rfl
  obtain ⟨same, e, value, grown, isExpansion', expanded⟩ := exists_expanded steady template done
  have inlined := expanded.inlined isExpansion'
  obtain ⟨rfl, copy, image, piece⟩ := inlined.exists_argument_wrapped steady isTree
    belongs isExpansion
  have expandable := expandable_wrapped (some binding) isTree
  have placement := expanded.placement expandable attached (singleReturn?_of_template? template)
    isExpansion
  refine ⟨p, w, _, value, copy, made, steady, template, done, inlined, piece, ?_, ?_⟩
  · have unbound : p.lexicon.look? (p.tree.sight ⟨11⟩) "y" = none := by
      rw [lexicon, isTree, isRoot]; decide
    rwa [steady.sound.isUnbound_iff (by rw [isTree, isRoot]; rfl)]
  · have isUse : (Expansion.paramOf? ⟨[⟨some binding, .plain⟩], [⟨11⟩]⟩ p ⟨3⟩).isSome = true := by
      rw [paramOf?_wrapped isTree belongs]
      rfl
    have spelled : (w.program.node copy).identifier? = some "y" := by
      obtain ⟨f, mirrors, -⟩ := piece.isInstance.exists_mirrors rfl
      rw [node, mirrors.identifier?, isTree]
      rfl
    have captured := expanded.isSome_resolve?_hole placement (.returned expanded.isInstance_after)
      image isUse spelled (by rw [lexicon, isTree, isRoot]; decide)
      (by rw [lexicon, isTree, isRoot]; decide)
    refine not_keepsMeaning captured ?_
    rw [steady.sound.bindingOf?_eq_none_iff, lexicon, isTree, isRoot]
    decide

end Program

end Unravel
