import Unravel.Proofs.Simplify.Around

/-!
What names mean in the place of a call that has been expanded.
-/

namespace Unravel

namespace Program

variable {p after : Program} {c : Context} {w : Workspace} {e : Expansion}
  {function expression call value root root' id copy : NodeId} {grown : Tree} {label name : String}
  {origin : Expansion.Origin}

/-- What holds of the calls and templates of every program that was parsed, but for a call in the
discriminant of a switch statement: only function expressions open scopes and declare names in them.
-/
structure Expandable (p : Program) (e : Expansion) (expression call : NodeId) : Prop where
  isSealed : p.tree.Sealed call
  template : p.tree.Sealed expression
  defaults : ∀ param ∈ e.params, ∀ default, param.form = .defaulted default → p.tree.Sealed default
  outside : p.tree.beyond call = p.tree.scopesAround call

/-- An identifier of an expression that means nothing which is declared in the expression. -/
def IsFreeIn (p : Program) (id root : NodeId) : Prop :=
  ∀ d, p.lexicon.meaning? id = some d → p.tree.isWithin d.owner root = false

/-- A name at a copy means what the copied identifier means: the same binding, or the binding of the
name in the copy of its scope. -/
def KeepsMeaning (p after : Program) (root root' id copy : NodeId) (name : String) : Prop :=
  after.scopes.shown (after.resolve? copy name) = p.scopes.shown (p.bindingOf? id) ∨
    ∃ scope scope' binding binding', p.tree.Image after.tree root root' scope scope' ∧
      p.bindingOf? id = some binding ∧ p.scopes.find? scope name = some binding ∧
      after.resolve? copy name = some binding' ∧ after.scopes.find? scope' name = some binding'

theorem not_keepsMeaning (bound : (after.resolve? copy name).isSome = true)
    (unbound : p.bindingOf? id = none) :
    ¬p.KeepsMeaning after root root' id copy name := by
  obtain ⟨binding, bound⟩ := Option.isSome_iff_exists.mp bound
  rintro (same | ⟨_, _, _, _, -, means, -⟩)
  · rw [bound, unbound] at same
    cases same
  · rw [unbound] at means
    cases means

namespace Expanded

variable (expanded : p.Expanded e expression call value grown after)

include expanded

theorem isSource_sealed (expandable : p.Expandable e expression call)
    (isSource : e.IsSource expression root) :
    p.tree.Sealed root := by
  obtain ⟨callee, shape⟩ := expanded.isCall
  rcases isSource with rfl | ⟨param, isParam, form⟩ | given
  · exact expandable.template
  · exact expandable.defaults param isParam root form
  · cases expandable.isSealed with
    | function isFunction =>
      rw [show p.tree.node call = _ from shape] at isFunction; cases isFunction
    | inert _ children =>
      refine children root ?_
      rw [show p.tree.node call = _ from shape]
      exact List.mem_cons_of_mem _ given

theorem attached_source (attached : p.tree.isWithin function p.root = true)
    (found : p.tree.singleReturn? function = some expression)
    (isExpansion : p.expansion? function call = some e) (isSource : e.IsSource expression root) :
    p.tree.isWithin root p.root = true := by
  have linked := expanded.steady.linked
  obtain ⟨callee, shape⟩ := expanded.isCall
  rcases isSource with rfl | ⟨param, isParam, form⟩ | given
  · exact linked.isWithin_trans (linked.isWithin_of_singleReturn? found) attached
  · obtain ⟨f, id, isFunction, held, made⟩ := exists_of_mem_params isExpansion isParam
    have above : p.tree.parent? id = some function := by
      rw [← linked.mem_children, show p.tree.node function = .function f from isFunction]
      simp [Node.children, held]
    exact linked.isWithin_trans (linked.isWithin_of_parent (parent?_of_param linked made form))
      (linked.isWithin_trans (linked.isWithin_of_parent above) attached)
  · have above : p.tree.parent? root = some call := by
      rw [← linked.mem_children, show p.tree.node call = _ from shape]
      exact List.mem_cons_of_mem _ given
    exact linked.isWithin_trans (linked.isWithin_of_parent above) expanded.attached

theorem placement (expandable : p.Expandable e expression call)
    (attached : p.isAttached function = true)
    (found : p.tree.singleReturn? function = some expression)
    (isExpansion : p.expansion? function call = some e) : e.Placement p after expression value where
  steady := expanded.steady
  afterSteady := expanded.afterSteady
  isInstance := expanded.isInstance_after
  isSealed := expanded.isSource_sealed expandable
  attached := by
    rw [isAttached_eq expanded.steady.linked expanded.steady.isTop.top] at attached
    exact expanded.attached_source attached found isExpansion
  attachedAfter := expanded.attachedAfter
  free := expanded.freeAfter
  outside := by rw [expanded.scopes_value.1, expanded.scopes_value.2, expandable.outside]

theorem closedCall : p.tree.opens call = false := by
  obtain ⟨callee, shape⟩ := expanded.isCall
  exact Tree.opens_of_isSilent (by rw [show p.tree.node call = _ from shape]; rfl)

theorem sight_call (expandable : p.Expandable e expression call) :
    p.tree.sight call = p.tree.scopesAround call := by
  rw [Tree.sight_eq_beyond expanded.freeCall.notBinding expanded.closedCall, expandable.outside]

theorem resolve?_of_argument (expandable : p.Expandable e expression call)
    (given : root ∈ e.arguments)
    (means : p.lexicon.meaning? id = p.lexicon.look? (p.tree.scopesAround root) name ∨
      p.lexicon.meaning? id = p.lexicon.look? (p.tree.beyond root) name) :
    p.resolve? call name = p.bindingOf? id := by
  have linked := expanded.steady.linked
  obtain ⟨callee, shape⟩ := expanded.isCall
  have above : p.tree.parent? root = some call := by
    rw [← linked.mem_children, show p.tree.node call = _ from shape]
    exact List.mem_cons_of_mem _ given
  rw [linked.scopesAround_of_parent above, linked.beyond_of_parent above, expanded.closedCall,
    Tree.scopesFrom_of_closed expanded.closedCall, Bool.false_and, if_neg Bool.false_ne_true,
    expandable.outside, or_self] at means
  rw [expanded.steady.sound.resolve?_eq expanded.attached, expanded.sight_call expandable,
    expanded.steady.sound.bindingOf?_eq, means]

theorem keepsMeaning (placement : e.Placement p after expression value)
    (expandable : p.Expandable e expression call)
    (piece : e.Piece p after.tree expression value origin root root')
    (image : p.tree.Image after.tree root root' id copy) (isSolid : origin.paramOf? e p id = none)
    (spelled : (p.node id).identifier? = some name) (isUse : (p.tree.role id).isUse = true)
    (outer : p.IsFreeIn id root →
      (p.lexicon.meaning? id = p.lexicon.look? (p.tree.scopesAround root) name ∨
        p.lexicon.meaning? id = p.lexicon.look? (p.tree.beyond root) name) →
      p.resolve? call name = p.bindingOf? id ∧ (origin ≠ .returned →
        ∀ scope, e.Shields p expression scope → p.lexicon.binder? scope name = none)) :
    KeepsMeaning p after root root' id copy name := by
  have linked := expanded.steady.linked
  have afterLinked := expanded.afterSteady.linked
  have sound := expanded.steady.sound
  have afterSound := expanded.afterSteady.sound
  have attachedCopy : after.tree.isWithin copy after.root = true :=
    afterLinked.isWithin_trans (image.isWithin_copy afterLinked)
      (afterLinked.isWithin_trans (piece.isWithin_value afterLinked) placement.attachedAfter)
  have resolved : after.resolve? copy name = (after.lexicon.look? (after.tree.sight copy) name).bind
      fun d => after.scopes.find? d.owner d.name := afterSound.resolve?_eq attachedCopy
  rcases placement.meaning_cases piece image isSolid spelled isUse with
    ⟨scope, scope', isImage, bound, means, found⟩ | ⟨means, found⟩
  · obtain ⟨d, isBound⟩ := Option.isSome_iff_exists.mp bound
    obtain ⟨isDeclared, rfl, rfl⟩ := Lexicon.binder?_some isBound
    have opens := (linked.scopes_owner expanded.steady.isTop isDeclared).2.2.2
    rw [← placement.isSome_binder? piece isImage opens] at bound
    obtain ⟨d', isBoundAfter⟩ := Option.isSome_iff_exists.mp bound
    obtain ⟨-, isOwner, named⟩ := Lexicon.binder?_some isBoundAfter
    obtain ⟨binding, isBinding, -⟩ := sound.exists_stands isBound
    obtain ⟨binding', isBinding', -⟩ := afterSound.exists_stands (Lexicon.binder?_self isBoundAfter)
    rw [isBound] at means
    rw [found, isBoundAfter, Option.bind_some] at resolved
    refine .inr ⟨d.owner, scope', binding, binding', isImage, ?_, isBinding,
      resolved.trans isBinding', ?_⟩
    · rw [sound.bindingOf?_eq, means, Option.bind_some, isBinding]
    · rw [← isOwner, ← named, isBinding']
  · have isFree : p.IsFreeIn id root := fun d isMeant => by
      have above : d.owner ∈ p.tree.ancestors root := by
        rcases means with means | means <;> rw [means] at isMeant
        · exact (Tree.mem_scopesAround.mp (Lexicon.look?_some isMeant).1).1
        · exact (linked.mem_beyond (Lexicon.look?_some isMeant).1).1
      rw [Bool.eq_false_iff]
      intro within
      have same := linked.isWithin_antisymm within (Tree.isWithin_iff.mpr (.inr above))
      exact linked.notMem_ancestors root (same ▸ above)
    obtain ⟨same, clear⟩ := outer isFree means
    have around :=
      (found clear).trans (expanded.look?_outside expandable.isSealed placement.isSealed_value name)
    rw [around] at resolved
    refine .inl ?_
    rw [← same, sound.resolve?_eq expanded.attached, expanded.sight_call expandable, resolved]
    refine Scopes.shown_bind_eq fun d isFound => ?_
    rw [sound.describes.shown_find? (Lexicon.look?_some isFound).2,
      afterSound.describes.shown_find? (Lexicon.look?_some (around.trans isFound)).2]

theorem sight_hole (placement : e.Placement p after expression value)
    (piece : e.Piece p after.tree expression value origin root root')
    (image : p.tree.Image after.tree root root' id copy) (isUse : (e.paramOf? p id).isSome = true)
    (spelled : (after.node copy).identifier? = some name) :
    after.tree.isWithin copy after.root = true ∧
    after.tree.sight copy = after.tree.beyond copy := by
  have afterLinked := expanded.afterSteady.linked
  have notBinding : ¬after.tree.Binds copy := fun binds => by
    obtain ⟨use, isUse⟩ := Option.isSome_iff_exists.mp isUse
    refine expanded.steady.linked.not_binds_of_isUse ?_
      (image.binds afterLinked (placement.not_binds_root piece) binds)
    rw [Role.isUse, (Expansion.isIdentifier_of_paramOf? isUse).2, Bool.true_or]
  have closed : after.tree.opens copy = false := by
    apply Tree.opens_of_isSilent
    cases shape : after.tree.node copy <;> simp_all [Program.node, Node.identifier?, Node.isSilent]
  exact ⟨afterLinked.isWithin_trans (image.isWithin_copy afterLinked)
    (afterLinked.isWithin_trans (piece.isWithin_value afterLinked) placement.attachedAfter),
    Tree.sight_eq_beyond notBinding closed⟩

theorem isUnbound_hole (placement : e.Placement p after expression value)
    (expandable : p.Expandable e expression call)
    (piece : e.Piece p after.tree expression value origin root root')
    (isTemplate : origin ≠ .argument) (image : p.tree.Image after.tree root root' id copy)
    (isUse : (e.paramOf? p id).isSome = true) (spelled : (after.node copy).identifier? = some name)
    (unbound : p.isUnbound call name = true)
    (clear : ∀ scope, e.Shields p expression scope → p.lexicon.binder? scope name = none) :
    after.isUnbound copy name = true := by
  obtain ⟨attachedCopy, sight⟩ := expanded.sight_hole placement piece image isUse spelled
  have outer := placement.look?_root clear piece
  rw [expanded.steady.sound.isUnbound_iff expanded.attached, expanded.sight_call expandable]
    at unbound
  rw [expanded.afterSteady.sound.isUnbound_iff attachedCopy, sight,
    (placement.look?_hole clear piece isTemplate image isUse outer.1 outer.2).2,
    expanded.look?_outside expandable.isSealed placement.isSealed_value, unbound]

theorem isSome_resolve?_hole (placement : e.Placement p after expression value)
    (piece : e.Piece p after.tree expression value origin root root')
    (image : p.tree.Image after.tree root root' id copy) (isUse : (e.paramOf? p id).isSome = true)
    (spelled : (after.node copy).identifier? = some name)
    (around : p.lexicon.look? (p.tree.beyond id) name ≠
      p.lexicon.look? (p.tree.scopesAround root) name)
    (beyond : p.lexicon.look? (p.tree.beyond id) name ≠ p.lexicon.look? (p.tree.beyond root) name) :
    (after.resolve? copy name).isSome = true := by
  obtain ⟨attachedCopy, sight⟩ := expanded.sight_hole placement piece image isUse spelled
  rw [expanded.afterSteady.sound.resolve?_eq attachedCopy, sight]
  have outlook := (piece.imaged placement.isSealed).outlook expanded.steady.linked
    expanded.afterSteady.linked image
  rcases outlook.2.look?_cases p.lexicon after.lexicon name
    (fun image opens => placement.isSome_binder? piece image opens) with
      ⟨owner, owner', isImage, member, bound, -, found⟩ | ⟨same, -⟩ | ⟨same, -⟩
  · have opens := (expanded.steady.linked.mem_beyond member).2
    rw [← placement.isSome_binder? piece isImage opens, Option.isSome_iff_exists] at bound
    obtain ⟨d, bound⟩ := bound
    obtain ⟨binding, isBinding, -⟩ := expanded.afterSteady.sound.exists_stands
      (Lexicon.binder?_self bound)
    rw [found, bound, Option.bind_some, isBinding]
    rfl
  · exact absurd same around
  · exact absurd same beyond

theorem isSome_resolve?_value (placement : e.Placement p after expression value)
    (expandable : p.Expandable e expression call) (isUse : (e.paramOf? p expression).isSome = true)
    (spelled : (after.node value).identifier? = some name)
    (declared : (p.lexicon.look? (p.tree.scopesAround call) name).isSome = true) :
    (after.resolve? value name).isSome = true := by
  obtain ⟨attachedCopy, sight⟩ := expanded.sight_hole placement (.returned placement.isInstance)
    .root isUse spelled
  obtain ⟨d, isDeclared⟩ := Option.isSome_iff_exists.mp declared
  rw [← expanded.look?_outside expandable.isSealed placement.isSealed_value] at isDeclared
  obtain ⟨binding, isBinding, -⟩ := expanded.afterSteady.sound.exists_stands
    (Lexicon.look?_some isDeclared).2
  rw [expanded.afterSteady.sound.resolve?_eq attachedCopy, sight, placement.outside, isDeclared,
    Option.bind_some, isBinding]
  rfl

end Expanded

end Program

end Unravel
