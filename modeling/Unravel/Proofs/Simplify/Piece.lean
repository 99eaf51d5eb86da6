import Unravel.Proofs.Program.Meaning
import Unravel.Proofs.Simplify.Image
import Unravel.Proofs.Simplify.Template

/-!
The pieces that an instance of a template is made of (`Expansion.Piece`): the returned expression,
default values of parameters and arguments, each copied into the hole that a use of a parameter has
left. What a name means in a piece is decided inside of it, or, if no scope of the template around a
hole declares the name, in the scopes around the whole instance
(`Expansion.Placement.meaning_cases`).
-/

namespace Unravel

theorem Node.exists_array_of_tag {α : Type} {n : Node α} (tag : n.tag = .array []) :
    ∃ elements, n = .array elements := by
  cases n <;> simp_all [Node.tag]

namespace Expansion

variable {e : Expansion} {p : Program} {base after : Tree}
  {expression value root root' id copy : NodeId} {uses : NodeId → Option (Param × Nat)}
  {name : String}

/-- What a piece of an instance is a copy of. -/
inductive Origin where
  | returned | default | argument
deriving DecidableEq

/-- The identifiers that have left holes in a copy: arguments are copied as they are. -/
def Origin.paramOf? (e : Expansion) (p : Program) : Origin → NodeId → Option (Param × Nat)
  | .argument => fun _ => none
  | _ => e.paramOf? p

/-- The pieces of an instance, each with the expression it is a copy of. -/
inductive Piece (e : Expansion) (p : Program) (after : Tree) (expression value : NodeId) :
    Origin → NodeId → NodeId → Prop where
  | returned (isInstance : e.Instance p p.tree after (e.paramOf? p) expression value) :
      Piece e p after expression value .returned expression value
  | default {origin : Origin} {root root' id hole default : NodeId} {use : Param × Nat}
      (outer : Piece e p after expression value origin root root') (isTemplate : origin ≠ .argument)
      (image : p.tree.Image after root root' id hole) (isUse : e.paramOf? p id = some use)
      (form : use.1.form = .defaulted default)
      (isInstance : e.Instance p p.tree after (e.paramOf? p) default hole) :
      Piece e p after expression value .default default hole
  | argument {origin : Origin} {root root' id hole argument : NodeId} {use : Param × Nat}
      (outer : Piece e p after expression value origin root root') (isTemplate : origin ≠ .argument)
      (image : p.tree.Image after root root' id hole) (isUse : e.paramOf? p id = some use)
      (given : argument ∈ e.arguments)
      (copied : e.Instance p p.tree after (fun _ => none) argument hole) :
      Piece e p after expression value .argument argument hole
  | element {origin : Origin} {root root' id hole argument element : NodeId} {use : Param × Nat}
      (outer : Piece e p after expression value origin root root') (isTemplate : origin ≠ .argument)
      (image : p.tree.Image after root root' id hole) (isUse : e.paramOf? p id = some use)
      (tag : (after.node hole).tag = .array []) (held : element ∈ (after.node hole).children)
      (given : argument ∈ e.arguments)
      (copied : e.Instance p p.tree after (fun _ => none) argument element) :
      Piece e p after expression value .argument argument element

def IsSource (e : Expansion) (expression root : NodeId) : Prop :=
  root = expression ∨ (∃ param ∈ e.params, param.form = .defaulted root) ∨ root ∈ e.arguments

/-- A scope of the template around the use of a parameter: what it declares is declared around what
comes into the place of the use. -/
def Shields (e : Expansion) (p : Program) (expression scope : NodeId) : Prop :=
  p.tree.opens scope = true ∧ ∃ root id,
    (root = expression ∨ ∃ param ∈ e.params, param.form = .defaulted root) ∧
      (e.paramOf? p id).isSome = true ∧ p.tree.isWithin id scope = true ∧
        p.tree.isWithin scope root = true

namespace Instance

theorem not_isUse_of_children (isUse : ∀ {id use}, uses id = some use →
    (p.node id).isIdentifier = true) (occupied : (p.tree.node id).children ≠ []) :
    uses id = none := by
  cases used : uses id with
  | none => rfl
  | some use =>
    have isIdentifier := isUse used
    cases shape : p.tree.node id <;>
      simp_all [Program.node, Node.isIdentifier, Node.identifier?, Node.children]

theorem exists_mirrors (isInstance : e.Instance p base after uses id copy) (free : uses id = none) :
    ∃ f, (p.tree.node id).Mirrors f (after.node copy) ∧
      ∀ child ∈ (p.tree.node id).children, e.Instance p base after uses child (f child) := by
  cases isInstance with
  | copied f _ _ mirrors children => exact ⟨f, mirrors, children⟩
  | argument isUse | missing isUse | rest _ isUse | default isUse => rw [isUse] at free; cases free

theorem image (isUse : ∀ {id use}, uses id = some use → (p.node id).isIdentifier = true)
    (isInstance : e.Instance p base after uses root root')
    (image : p.tree.Image after root root' id copy) : e.Instance p base after uses id copy := by
  induction image with
  | root => exact isInstance
  | @child id copy child f _ mirrors held induction =>
    obtain ⟨g, same, children⟩ :=
      induction.exists_mirrors (not_isUse_of_children isUse (List.ne_nil_of_mem held))
    have sameMap := same.children.symm.trans mirrors.children
    rw [List.map_inj_left] at sameMap
    exact sameMap child held ▸ children child held

/-- Whatever is part of an expression has an image in its instance: what is used has no parts. -/
theorem exists_image (isUse : ∀ {id use}, uses id = some use → (p.node id).isIdentifier = true)
    (isInstance : e.Instance p base after uses root root') (linked : p.tree.Linked)
    (within : p.tree.isWithin id root = true) : ∃ copy, p.tree.Image after root root' id copy := by
  induction id using linked.induction with
  | step id induction =>
    by_cases same : id = root
    · exact ⟨root', same ▸ .root⟩
    · cases held : p.tree.parent? id with
      | none => exact absurd ((Tree.isWithin_of_root held).mp within) same
      | some parent =>
        rw [linked.isWithin_parent held same] at within
        obtain ⟨outer, image⟩ := induction parent held within
        have isChild := linked.mem_children.mpr held
        obtain ⟨f, mirrors, -⟩ := (isInstance.image isUse image).exists_mirrors
          (not_isUse_of_children isUse (List.ne_nil_of_mem isChild))
        exact ⟨f id, .child f image mirrors isChild⟩

/-- An instance of sealed pieces is sealed. -/
theorem isSealed (isInstance : e.Instance p base after uses id copy)
    (solid : uses id = none → p.tree.Sealed id)
    (defaults : ∀ param ∈ e.params, ∀ default, param.form = .defaulted default →
      p.tree.Sealed default)
    (arguments : ∀ argument ∈ e.arguments, p.tree.Sealed argument) : after.Sealed copy := by
  induction isInstance with
  | @copied uses id copy f free _ mirrors _ induction =>
    cases solid free with
    | function shape kind =>
      have tag := mirrors.tag
      rw [shape] at tag
      cases copied : after.node copy with
      | function g =>
        rw [copied] at tag
        simp only [Node.tag, Node.function.injEq, Function.mk.injEq] at tag
        exact .function copied (tag.1.trans kind)
      | _ => rw [copied] at tag; cases tag
    | inert isInert children =>
      refine .inert (by rwa [← Node.isInert_tag, mirrors.tag, Node.isInert_tag])
        fun child member => ?_
      rw [mirrors.children, List.mem_map] at member
      obtain ⟨original, held, rfl⟩ := member
      exact induction original held fun _ => children original held
  | argument _ _ given _ induction =>
    exact induction fun _ => arguments _ (List.mem_of_getElem? given)
  | @missing uses id copy use _ _ _ _ tag =>
    cases shape : after.node copy <;> simp_all [Node.tag]
    exact .inert (by rw [shape]; rfl) (by simp [shape, Node.children])
  | @rest uses id copy use original _ _ _ tag given _ induction =>
    refine .inert ?_
      fun element member => induction element member fun _ => arguments _ (given element member)
    rw [← Node.isInert_tag, tag]
    rfl
  | default _ isParam form _ _ induction => exact induction fun _ => defaults _ isParam _ form

end Instance

theorem Origin.isIdentifier_of_paramOf? {origin : Origin} {use : Param × Nat}
    (isUse : origin.paramOf? e p id = some use) :
    (p.node id).isIdentifier = true ∧ (p.tree.role id).reads = true := by
  cases origin with
  | argument => cases isUse
  | returned | default => exact Expansion.isIdentifier_of_paramOf? isUse

namespace Piece

variable {origin : Origin} (piece : e.Piece p after expression value origin root root')

include piece

theorem isInstance : e.Instance p p.tree after (origin.paramOf? e p) root root' := by
  cases piece with
  | returned isInstance | default _ _ _ _ _ isInstance => exact isInstance
  | argument _ _ _ _ _ copied | element _ _ _ _ _ _ _ copied => exact copied

theorem isSource : e.IsSource expression root := by
  cases piece with
  | returned => exact .inl rfl
  | default _ _ _ isUse form => exact .inr (.inl ⟨_, mem_params_of_paramOf? isUse, form⟩)
  | argument _ _ _ _ given | element _ _ _ _ _ _ given => exact .inr (.inr given)

omit piece in
theorem mem_arguments (piece : e.Piece p after expression value .argument root root') :
    root ∈ e.arguments := by
  cases piece with
  | argument _ _ _ _ given | element _ _ _ _ _ _ given => exact given

theorem isSource_of_template (isTemplate : origin ≠ .argument) :
    root = expression ∨ ∃ param ∈ e.params, param.form = .defaulted root := by
  cases piece with
  | returned => exact .inl rfl
  | default _ _ _ isUse form => exact .inr ⟨_, mem_params_of_paramOf? isUse, form⟩
  | argument | element => exact absurd rfl isTemplate

theorem isWithin_value (afterLinked : after.Linked) : after.isWithin root' value = true := by
  induction piece with
  | returned => exact Tree.isWithin_self
  | default _ _ image _ _ _ induction | argument _ _ image _ _ _ induction =>
    exact afterLinked.isWithin_trans (image.isWithin_copy afterLinked) induction
  | element _ _ image _ _ held _ _ induction =>
    have above := afterLinked.isWithin_of_parent (afterLinked.mem_children.mp held)
    exact afterLinked.isWithin_trans above
      (afterLinked.isWithin_trans (image.isWithin_copy afterLinked) induction)

theorem imaged (isSealed : ∀ {root}, e.IsSource expression root → p.tree.Sealed root) :
    p.tree.Imaged after (fun id => (origin.paramOf? e p id).isSome = true) root root' where
  solid image isSolid := by
    have isInstance :=
      piece.isInstance.image (fun isUse => (Origin.isIdentifier_of_paramOf? isUse).1) image
    rw [Option.not_isSome_iff_eq_none] at isSolid
    obtain ⟨f, mirrors, -⟩ := isInstance.exists_mirrors isSolid
    exact ⟨f, mirrors⟩
  isUse isHole := by
    obtain ⟨use, isUse⟩ := Option.isSome_iff_exists.mp isHole
    exact Origin.isIdentifier_of_paramOf? isUse
  isSealed := isSealed piece.isSource
  filled image isHole := by
    have isInstance :=
      piece.isInstance.image (fun isUse => (Origin.isIdentifier_of_paramOf? isUse).1) image
    refine isInstance.isSealed (fun free => ?_) (fun param member default form => ?_)
      fun argument given => ?_
    · rw [free] at isHole
      cases isHole
    · exact isSealed (.inr (.inl ⟨param, member, form⟩))
    · exact isSealed (.inr (.inr given))

end Piece

/-- Whatever is part of an instance is a copy in one of the pieces, or has been put into a hole for
a missing argument or for several ones. -/
theorem Instance.exists_piece {top : NodeId} (afterLinked : after.Linked) {origin : Origin}
    (isInstance : e.Instance p p.tree after uses id copy) (isUses : uses = origin.paramOf? e p)
    (piece : e.Piece p after expression value origin root root')
    (image : p.tree.Image after root root' id copy) (within : after.isWithin top copy = true) :
    (∃ origin root root' id, e.Piece p after expression value origin root root' ∧
      p.tree.Image after root root' id top ∧ origin.paramOf? e p id = none) ∨
    ∃ origin root root' id, e.Piece p after expression value origin root root' ∧
      p.tree.Image after root root' id top ∧ (e.paramOf? p id).isSome = true ∧
        ((after.node top).tag = .identifier "undefined" ∨ (after.node top).tag = .array []) := by
  have isTemplate {origin : Origin} {uses : NodeId → Option (Param × Nat)} {id : NodeId}
      {use : Param × Nat} (isUses : uses = origin.paramOf? e p) (isUse : uses id = some use) :
      origin ≠ .argument ∧ uses = e.paramOf? p := by
    cases origin with
    | argument => rw [isUses] at isUse; cases isUse
    | returned | default => exact ⟨by decide, isUses⟩
  induction isInstance generalizing origin root root' with
  | @copied uses id copy f free _ mirrors _ induction =>
    by_cases same : top = copy
    · exact .inl ⟨origin, root, root', id, piece, same ▸ image, isUses ▸ free⟩
    · obtain ⟨child, member, below⟩ := afterLinked.exists_child within same
      rw [mirrors.children, List.mem_map] at member
      obtain ⟨original, held, rfl⟩ := member
      exact induction original held isUses piece (.child f image mirrors held) below
  | argument isUse _ given copied induction =>
    obtain ⟨notArgument, rfl⟩ := isTemplate isUses isUse
    exact induction (by rfl)
      (.argument piece notArgument image isUse (List.mem_of_getElem? given) copied) .root within
  | @missing uses id copy use isUse _ _ isNew tag =>
    have leaf : (after.node copy).children = [] := by
      cases shape : after.node copy <;> simp_all [Node.tag, Node.children]
    obtain ⟨-, rfl⟩ := isTemplate isUses isUse
    by_cases same : top = copy
    · exact .inr ⟨origin, root, root', id, piece, same ▸ image, by rw [isUse]; rfl,
        .inl (same ▸ tag)⟩
    · obtain ⟨child, member, -⟩ := afterLinked.exists_child within same
      rw [leaf] at member
      cases member
  | @rest uses id copy use original isUse _ _ tag given copied induction =>
    obtain ⟨notArgument, rfl⟩ := isTemplate isUses isUse
    by_cases same : top = copy
    · exact .inr ⟨origin, root, root', id, piece, same ▸ image, by rw [isUse]; rfl,
        .inr (same ▸ tag)⟩
    · obtain ⟨element, member, below⟩ := afterLinked.exists_child within same
      exact induction element member (by rfl)
        (.element piece notArgument image isUse tag member (given element member)
          (copied element member)) .root below
  | default isUse _ form _ expanded induction =>
    obtain ⟨notArgument, rfl⟩ := isTemplate isUses isUse
    exact induction (by rfl) (.default piece notArgument image isUse form expanded) .root within

/-- An instance of a template in a program. The template is sealed, and nothing of what is around
the instance is seen by a part of it only. -/
structure Placement (e : Expansion) (p after : Program) (expression value : NodeId) : Prop where
  steady : p.Steady
  afterSteady : after.Steady
  isInstance : e.Instance p p.tree after.tree (e.paramOf? p) expression value
  isSealed : ∀ {root}, e.IsSource expression root → p.tree.Sealed root
  attached : ∀ {root}, e.IsSource expression root → p.tree.isWithin root p.root = true
  attachedAfter : after.tree.isWithin value after.root = true
  free : ¬after.tree.Binds value
  outside : after.tree.beyond value = after.tree.scopesAround value

namespace Placement

variable {after : Program} {origin : Origin} (placement : e.Placement p after expression value)

include placement

theorem isSealed_value : after.tree.Sealed value :=
  placement.isInstance.isSealed (fun _ => placement.isSealed (.inl rfl))
    (fun param isParam _ form => placement.isSealed (.inr (.inl ⟨param, isParam, form⟩)))
    fun _ given => placement.isSealed (.inr (.inr given))

section

variable (piece : e.Piece p after.tree expression value origin root root')

include piece

theorem isSome_binder? {owner owner' : NodeId}
    (image : p.tree.Image after.tree root root' owner owner') (opens : p.tree.opens owner = true) :
    (after.lexicon.binder? owner' name).isSome = (p.lexicon.binder? owner name).isSome := by
  have afterLinked := placement.afterSteady.linked
  have attachedAfter := afterLinked.isWithin_trans (piece.isWithin_value afterLinked)
    placement.attachedAfter
  exact (piece.imaged placement.isSealed).isSome_binder? placement.steady.linked afterLinked
    placement.steady.wellBound placement.steady.isTop placement.afterSteady.isTop
    (placement.attached piece.isSource) attachedAfter image opens

theorem not_binds_root : ¬after.tree.Binds root' := by
  have afterLinked := placement.afterSteady.linked
  induction piece with
  | returned => exact placement.free
  | default _ _ image isUse _ _ induction | argument _ _ image isUse _ _ induction =>
    intro binds
    refine placement.steady.linked.not_binds_of_isUse ?_ (image.binds afterLinked induction binds)
    rw [Role.isUse, (isIdentifier_of_paramOf? isUse).2, Bool.true_or]
  | element _ _ _ _ tag held =>
    obtain ⟨elements, shape⟩ := Node.exists_array_of_tag tag
    refine afterLinked.not_binds_of_parent (afterLinked.mem_children.mp held)
      fun part isPlace isHeld => ?_
    rw [shape] at isHeld
    cases part <;> cases isHeld

end

section Clear

variable (clear : ∀ scope, e.Shields p expression scope → p.lexicon.binder? scope name = none)

include clear

theorem look?_hole (piece : e.Piece p after.tree expression value origin root root')
    (isTemplate : origin ≠ .argument) (image : p.tree.Image after.tree root root' id copy)
    (isUse : (e.paramOf? p id).isSome = true)
    (around : after.lexicon.look? (after.tree.scopesAround root') name =
      after.lexicon.look? (after.tree.scopesAround value) name)
    (beyond : after.lexicon.look? (after.tree.beyond root') name =
      after.lexicon.look? (after.tree.scopesAround value) name) :
    after.lexicon.look? (after.tree.scopesAround copy) name =
        after.lexicon.look? (after.tree.scopesAround value) name ∧
      after.lexicon.look? (after.tree.beyond copy) name =
        after.lexicon.look? (after.tree.scopesAround value) name := by
  have linked := placement.steady.linked
  have outlook := (piece.imaged placement.isSealed).outlook linked
    placement.afterSteady.linked image
  have pass {places places' : List NodeId}
      (outlook : p.tree.Outlook after.tree root root' places places')
      (isAbove : ∀ owner ∈ places, owner ∈ p.tree.ancestors id ∧ p.tree.opens owner = true) :
      after.lexicon.look? places' name =
        after.lexicon.look? (after.tree.scopesAround value) name := by
    rcases outlook.look?_cases p.lexicon after.lexicon name
      (fun image opens => placement.isSome_binder? piece image opens) with
        ⟨owner, owner', isImage, member, bound, -, -⟩ | ⟨-, same⟩ | ⟨-, same⟩
    · obtain ⟨above, opens⟩ := isAbove owner member
      rw [clear owner ⟨opens, root, id, piece.isSource_of_template isTemplate, isUse,
        Tree.isWithin_iff.mpr (.inr above), isImage.isWithin linked⟩] at bound
      cases bound
    · exact same.trans around
    · exact same.trans beyond
  exact ⟨pass outlook.1 fun owner member => Tree.mem_scopesAround.mp member,
    pass outlook.2 fun owner member => linked.mem_beyond member⟩

theorem look?_root (piece : e.Piece p after.tree expression value origin root root') :
    after.lexicon.look? (after.tree.scopesAround root') name =
        after.lexicon.look? (after.tree.scopesAround value) name ∧
      after.lexicon.look? (after.tree.beyond root') name =
        after.lexicon.look? (after.tree.scopesAround value) name := by
  have afterLinked := placement.afterSteady.linked
  induction piece with
  | returned => exact ⟨rfl, by rw [placement.outside]⟩
  | default outer isTemplate image isUse _ _ induction
    | argument outer isTemplate image isUse _ _ induction =>
    exact placement.look?_hole clear outer isTemplate image (by rw [isUse]; rfl)
      induction.1 induction.2
  | element outer isTemplate image isUse tag held _ _ induction =>
    obtain ⟨elements, shape⟩ := Node.exists_array_of_tag tag
    have hole := placement.look?_hole clear outer isTemplate image (by rw [isUse]; rfl)
      induction.1 induction.2
    have closed := Tree.opens_of_isSilent (t := after.tree) (by rw [shape]; rfl)
    have above := afterLinked.mem_children.mp held
    rw [afterLinked.scopesAround_of_parent above, afterLinked.beyond_of_parent above, closed,
      Tree.scopesFrom_of_closed closed, Bool.false_and, if_neg Bool.false_ne_true]
    exact hole

end Clear

theorem meaning_cases (piece : e.Piece p after.tree expression value origin root root')
    (image : p.tree.Image after.tree root root' id copy) (isSolid : origin.paramOf? e p id = none)
    (spelled : (p.node id).identifier? = some name) (isUse : (p.tree.role id).isUse = true) :
    (∃ scope scope', p.tree.Image after.tree root root' scope scope' ∧
      (p.lexicon.binder? scope name).isSome = true ∧
      p.lexicon.meaning? id = p.lexicon.binder? scope name ∧
        after.lexicon.look? (after.tree.sight copy) name = after.lexicon.binder? scope' name) ∨
      (p.lexicon.meaning? id = p.lexicon.look? (p.tree.scopesAround root) name ∨
        p.lexicon.meaning? id = p.lexicon.look? (p.tree.beyond root) name) ∧
      ((origin ≠ .returned → ∀ scope, e.Shields p expression scope →
        p.lexicon.binder? scope name = none) →
        after.lexicon.look? (after.tree.sight copy) name =
          after.lexicon.look? (after.tree.scopesAround value) name) := by
  have linked := placement.steady.linked
  have afterLinked := placement.afterSteady.linked
  have imaged := piece.imaged placement.isSealed
  have notBinding : ¬p.tree.Binds id := linked.not_binds_of_isUse isUse
  have closed : p.tree.opens id = false := by
    apply Tree.opens_of_isSilent
    cases shape : p.tree.node id <;> simp_all [Program.node, Node.identifier?, Node.isSilent]
  have closedAfter : after.tree.opens copy = false := by
    rw [imaged.opens image linked afterLinked (by rw [isSolid]; exact Bool.false_ne_true), closed]
  have sightAfter := Tree.sight_eq_beyond
    (fun binds => notBinding (image.binds afterLinked (placement.not_binds_root piece) binds))
    closedAfter
  have attached := linked.isWithin_trans (image.isWithin linked) (placement.attached piece.isSource)
  have means := linked.meaning?_of_isUse attached spelled isUse
  have outside (clear : origin ≠ .returned → ∀ scope, e.Shields p expression scope →
      p.lexicon.binder? scope name = none) :
      after.lexicon.look? (after.tree.scopesAround root') name =
          after.lexicon.look? (after.tree.scopesAround value) name ∧
        after.lexicon.look? (after.tree.beyond root') name =
          after.lexicon.look? (after.tree.scopesAround value) name := by
    by_cases isReturned : origin = .returned
    · subst isReturned
      cases piece
      exact ⟨rfl, by rw [placement.outside]⟩
    · exact placement.look?_root (clear isReturned) piece
  rw [means, sightAfter]
  rcases (imaged.outlook linked afterLinked image).2.look?_cases p.lexicon after.lexicon name
    (fun image opens => placement.isSome_binder? piece image opens) with
      ⟨owner, owner', isImage, -, bound, found, foundAfter⟩ | ⟨found, foundAfter⟩ |
      ⟨found, foundAfter⟩
  · exact .inl ⟨owner, owner', isImage, bound, found, foundAfter⟩
  · exact .inr ⟨.inl found, fun clear => foundAfter.trans (outside clear).1⟩
  · exact .inr ⟨.inr found, fun clear => foundAfter.trans (outside clear).2⟩

end Placement

end Expansion

end Unravel
