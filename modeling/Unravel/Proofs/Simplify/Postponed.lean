import Unravel.Proofs.Simplify.Along
import Unravel.Proofs.Simplify.DeclaratorWeight
import Unravel.Proofs.Simplify.ReadOnly
import Unravel.Proofs.Tree.Order

/-!
Uses of a constant that are replaced by the name that it was initialized with. So far the name was
read where the constant is declared, and from now on it is read at the uses. In between there must
be no declarator that initializes what the name means, and there is none unless it comes after the
constant and before a use (`Program.Reached.postpones_reads_iff`).
-/

namespace Unravel

open SimplifyM Program

variable {o p q : Program} {c : Context} {declarator target init other use x : NodeId}
  {value : Option NodeId} {constant b : BindingId} {d : Declaration}

namespace Program

theorem Sound.bindingOf?_identifier (sound : p.Sound) (belongs : p.bindingOf? x = some b) :
    p.bindingOf? (p.binding b).identifier = some b := by
  obtain ⟨d, means, stands⟩ := sound.exists_of_bindingOf? belongs
  have bound := Lexicon.meaning?_some means
  have isMeant : p.lexicon.meaning? d.identifier = some d := by
    rw [sound.regular.meaning?_of_declared (Lexicon.binder?_some bound).1, bound]
  rw [show (p.binding b).identifier = d.identifier from stands.identifier, sound.bindingOf?_eq,
    isMeant, ← means, ← sound.bindingOf?_eq, belongs]

theorem Sound.mem_references_iff (sound : p.Sound) (belongs : p.bindingOf? x = some b)
    (unwritten : (p.binding b).mutations = []) : use ∈ (p.binding b).references ↔
      p.bindingOf? use = some b ∧ use ≠ (p.binding b).identifier := by
  obtain ⟨d, means, stands⟩ := sound.exists_of_bindingOf? belongs
  have same : (p.binding b).identifier = d.identifier := stands.identifier
  constructor
  · intro member
    rw [same]
    exact ⟨sound.bindingOf?_of_reference belongs member,
      (sound.meaning?_of_mem means belongs (.inl member)).2⟩
  · rintro ⟨isUse, different⟩
    have isMeant := (sound.meaning?_eq (isUse.trans belongs.symm)).trans means
    obtain ⟨_, found, -, cases_⟩ := sound.exists_of_means isMeant
    rw [← same, sound.bindingOf?_identifier belongs, Option.some.injEq] at found
    subst found
    rw [unwritten] at cases_
    rcases cases_ with itself | isReference | none
    · exact absurd (itself.trans same.symm) different
    · exact isReference
    · cases none

/-! ### Declarators around others -/

theorem Neat.isWithin_operand (neat : o.Neat q) (steady : q.Steady) {holder operand : NodeId}
    (attached : q.isAttached holder = true) (isChild : operand ∈ (q.node holder).children)
    (holds : (q.node holder).holdsOperands = true) (free : ¬q.tree.Binds operand)
    (means : q.lexicon.meaning? use = some d)
    (within : q.tree.isWithin d.identifier operand = true) :
    q.tree.isWithin use operand = true := by
  have linked := steady.linked
  have sorted := neat.tidy.sorted
  have owned := neat.owns_of_isAttached attached
  have confines := steady.confines sorted (sorted.child owned isChild).1
    (Tree.allocated_of_parent? (linked.mem_children.mp isChild))
    (sorted.isOperand_child owned isChild holds) free
  by_contra outside
  rw [confines.not_isWithin linked steady.isTop (Bool.eq_false_iff.mpr outside) means] at within
  cases within

theorem Neat.precedes_cases (neat : o.Neat q) (steady : q.Steady)
    (attached : q.isAttached declarator = true)
    (shape : q.node declarator = .variableDeclarator target (some init))
    (belongs : q.bindingOf? target = some constant)
    (isDeclared : (q.binding constant).identifier = target) (copies : q.bindingOf? init = some b)
    (different : b ≠ constant) (declared : q.declaratorOf? b = some (other, value)) :
    q.tree.precedes other declarator = true ∨ q.tree.precedes declarator other = true ∨
      ∀ use, q.bindingOf? use = some constant → q.tree.precedes other use = false := by
  have linked := steady.linked
  have isTop := steady.isTop
  have sound := steady.sound
  obtain ⟨d, meansTarget, stands⟩ := sound.exists_of_bindingOf? belongs
  have live := sound.live_of_bindingOf? copies
  have otherAttached := steady.attached_of_declaratorOf? live declared
  obtain ⟨-, otherShape⟩ := declaratorOf?_eq_some_iff.mp declared
  have leaf {id : NodeId} {binding : BindingId} (belongs : q.bindingOf? id = some binding) :
      (q.node id).isIdentifier = true := by
    obtain ⟨_, means, -⟩ := sound.exists_of_bindingOf? belongs
    exact sound.isIdentifier_of_meaning? means
  -- A declarator lies in no identifier.
  have notWithin {id outer : NodeId} {name : NodeId} {init : Option NodeId}
      (shape : q.node id = .variableDeclarator name init)
      (isIdentifier : (q.node outer).isIdentifier = true) :
      q.tree.isWithin id outer = false := by
    rw [Bool.eq_false_iff]
    intro within
    rw [← linked.eq_of_isWithin_leaf (Tree.children_of_isIdentifier isIdentifier) within, shape]
      at isIdentifier
    cases isIdentifier
  have notSame : other ≠ declarator := by
    rintro rfl
    have isOwn := sound.bindingOf?_identifier copies
    rw [shape, Node.variableDeclarator.injEq] at otherShape
    rw [← otherShape.1, belongs, Option.some.injEq] at isOwn
    exact different isOwn.symm
  rw [isAttached_eq linked isTop.top] at attached
  rcases linked.precedes_total isTop.allocated otherAttached attached with
    before | after | below | around
  · exact .inl before
  · exact .inr (.inl after)
  · obtain ⟨child, isChild, within⟩ := linked.exists_child below notSame
    rw [show q.tree.node declarator = _ from shape] at isChild
    have isIdentifier : (q.node child).isIdentifier = true := by
      rcases List.mem_pair.mp (show child ∈ [target, init] from isChild) with rfl | rfl
      · exact leaf belongs
      · exact leaf copies
    rw [notWithin otherShape isIdentifier] at within
    cases within
  · refine .inr (.inr fun use isUse => ?_)
    obtain ⟨child, isChild, within⟩ := linked.exists_child around notSame.symm
    have isChildOf := isChild
    rw [show q.tree.node other = _ from otherShape] at isChild
    rcases List.mem_cons.mp isChild with rfl | isValue
    · rw [notWithin shape (leaf (sound.bindingOf?_identifier copies))] at within
      cases within
    · -- The constant is declared in a function that the other declarator holds, and so are its
      -- uses.
      rw [Option.mem_toList] at isValue
      obtain rfl : value = some child := isValue
      have isMeant : q.lexicon.meaning? use = some d :=
        (sound.meaning?_eq (isUse.trans belongs.symm)).trans meansTarget
      have inside : q.tree.isWithin d.identifier child = true := by
        rw [← show (q.binding constant).identifier = d.identifier from stands.identifier,
          isDeclared]
        refine linked.isWithin_trans (linked.isWithin_of_parent (linked.mem_children.mp ?_)) within
        rw [show q.tree.node declarator = _ from shape]
        exact List.mem_cons_self ..
      have below := neat.isWithin_operand steady (by rwa [isAttached_eq linked isTop.top]) isChildOf
        (by rw [otherShape]; rfl) (linked.not_binds_of_isRead (.initializer otherShape))
        isMeant inside
      rw [Bool.eq_false_iff]
      intro before
      have outside := (Tree.not_isWithin_of_precedes before).1
      rw [linked.isWithin_trans below
        (linked.isWithin_of_parent (linked.mem_children.mp isChildOf))] at outside
      cases outside

end Program

/-! ### Uses that are replaced -/

namespace ConstantUse

variable {plan : Plan}

theorem precedes_of_plan? (planned : plan? p c declarator = some plan) :
    ∀ use ∈ plan.uses, p.tree.precedes declarator use = true := by
  unfold plan? at planned
  split at planned
  · simp only [bind, Option.bind_eq_some_iff] at planned
    obtain ⟨_, -, planned⟩ := planned
    split at planned
    · rename_i holds
      cases planned
      simp only [Bool.and_eq_true, List.all_eq_true] at holds
      exact holds.1.2
    · cases planned
  · cases planned

theorem ne_of_isStable (stable : isStable p constant init = true)
    (copies : p.bindingOf? init = some b) (isIdentifier : (p.node init).isIdentifier = true) :
    b ≠ constant := by
  rw [isStable, Bool.or_eq_true] at stable
  rcases stable with isLiteral | isName
  · rw [Program.node, Tree.not_isIdentifier_of_isLiteralValue isLiteral] at isIdentifier
    cases isIdentifier
  · split at isName
    · cases isName
    · rw [copies] at isName
      simp only [Option.all_some, Bool.and_eq_true, decide_eq_true_eq] at isName
      exact isName.1.1

theorem exists_of_step {w v : Workspace} (stepped : step declarator w = .ok true v) :
    ∃ plan, plan? w.program w.context declarator = some plan := by
  rw [step, program_bind, context_bind] at stepped
  cases planned : plan? w.program w.context declarator with
  | none =>
    simp only [planned] at stepped
    cases (EStateM.Result.ok.inj stepped).1
  | some plan => exact ⟨plan, rfl⟩

theorem step_ne_false {w v : Workspace}
    (planned : plan? w.program w.context declarator = some plan) :
    step declarator w ≠ .ok false v := by
  rw [step, program_bind, context_bind, planned]
  refine Affirms.bind (fun _ => ?_) w v
  exact .bind fun _ => .bind fun _ => .bind fun _ => .thenYes

end ConstantUse

/-- Whatever constants have been replaced before, the uses that are replaced next are all there are
of a constant, and they come after its declarator. What the constant copies is initialized in front
of its declarator whenever it is in front of one of them, unless this happens after the declarator
and before one of them. -/
theorem Program.Reached.postpones_reads_iff (reached : p.Reached) (verified : p.verify = .ok ())
    (wellBound : p.tree.WellBound) (sorted : p.tree.Sorted fun id => p.isAttached id = true)
    {found left last : Workspace}
    (visits : Visits (fun p id => ConstantUse.isDeclarator (p.node id)) ConstantUse.step
      ⟨p, c⟩ declarator found left last)
    (shape : found.program.node declarator = .variableDeclarator target (some init))
    (copies : found.program.bindingOf? init = some b)
    (declared : found.program.declaratorOf? b = some (other, value)) :
    ∃ constant uses, found.program.bindingOf? target = some constant ∧
      ConstantUse.plan? found.program found.context declarator = some ⟨target, init, uses⟩ ∧
      (∀ use, use ∈ uses ↔ found.program.bindingOf? use = some constant ∧ use ≠ target) ∧
      (∀ use ∈ uses, found.program.tree.precedes declarator use = true) ∧
      ((∀ use ∈ uses, found.program.tree.precedes other use = true →
          found.program.tree.precedes other declarator = true) ↔
        ∀ use ∈ uses, ¬(found.program.tree.precedes declarator other = true ∧
          found.program.tree.precedes other use = true)) := by
  have sound := reached.sound verified
  have here : p.Orderly .names p p := .names (.start sound sorted) ⟨sound, wellBound⟩
  obtain ⟨leads, -⟩ := visits.along (Along.course p .names) here
    fun _ _ leads attached => ConstantUse.orderly_step leads.stay attached
  obtain ⟨plan, planned⟩ := ConstantUse.exists_of_step visits.stepped
  obtain ⟨constant, planShape, belongs, unwritten, isUses, stable⟩ := ConstantUse.of_plan? planned
  obtain ⟨_, same, isDeclared, -⟩ := ConstantUse.unprotected_of_plan? planned
  rw [belongs, Option.some.injEq] at same
  subst same
  rw [shape, Node.variableDeclarator.injEq, Option.some.injEq] at planShape
  obtain ⟨target', init', uses⟩ := plan
  obtain ⟨rfl, rfl⟩ := planShape
  have steadyNow := (leads.steady rfl).1
  have soundNow := steadyNow.sound
  obtain ⟨_, meansInit, -⟩ := soundNow.exists_of_bindingOf? copies
  have different := ConstantUse.ne_of_isStable stable copies
    (soundNow.isIdentifier_of_meaning? meansInit)
  have isUse (use : NodeId) : use ∈ uses ↔ found.program.bindingOf? use = some constant ∧
      use ≠ target := by
    rw [show uses = _ from isUses, soundNow.mem_references_iff belongs unwritten,
      show (found.program.binding constant).identifier = target from isDeclared]
  have cases_ := (leads.neat nofun).precedes_cases steadyNow visits.attached shape belongs
    isDeclared copies different declared
  refine ⟨constant, uses, belongs, planned, isUse, ConstantUse.precedes_of_plan? planned, ?_, ?_⟩
  · rintro ordered use member ⟨behind, before⟩
    rw [steadyNow.linked.not_precedes_of_precedes behind] at ordered
    exact absurd (ordered use member before) nofun
  · intro apart use member before
    rcases cases_ with inFront | behind | none
    · exact inFront
    · exact absurd ⟨behind, before⟩ (apart use member)
    · rw [none use ((isUse use).mp member).1] at before
      cases before

/-! ### A constant that copies a name -/

namespace ConstantUse

theorem isStable_of_name {name : String} (spelled : p.node init = .identifier name)
    (copies : p.bindingOf? init = some b) (different : b ≠ constant)
    (isConstant : (p.binding b).isConstant = true)
    (same : ∀ use ∈ (p.binding constant).references, p.resolve? use name = some b) :
    isStable p constant init = true := by
  rw [isStable, spelled, Bool.or_eq_true]
  refine .inr ?_
  simp only [Node.identifier?, copies, Option.all_some, isConstant, decide_eq_true different,
    Bool.true_and, List.all_eq_true]
  exact fun use member => decide_eq_true (same use member)

theorem plan?_eq_some (shape : p.node declarator = .variableDeclarator target (some init))
    (belongs : p.bindingOf? target = some b) (isDeclared : (p.binding b).identifier = target)
    (isConstant : p.isConstantVariable b = true) (free : c.isProtected (p.binding b).name = false)
    (used : use ∈ (p.binding b).references)
    (after : ∀ use ∈ (p.binding b).references, p.tree.precedes declarator use = true)
    (stable : isStable p b init = true) :
    plan? p c declarator = some ⟨target, init, (p.binding b).references⟩ := by
  have isReferenced : (p.binding b).isReferenced = true := by
    rw [Binding.isReferenced, List.isEmpty_eq_false_iff_exists_mem.mpr ⟨use, used⟩]
    rfl
  simp only [plan?, shape, belongs, isDeclared, isConstant, free, isReferenced,
    List.all_eq_true.mpr after, stable, Option.bind_eq_bind, Option.bind_some]
  rfl

theorem plan?_eq_none {callee : NodeId} {arguments : List NodeId}
    (shape : p.node declarator = .variableDeclarator target (some init))
    (isCall : p.node init = .call callee arguments) :
    plan? p c declarator = none := by
  have notStable (b : BindingId) : isStable p b init = false := by
    have noLiteral : p.tree.isLiteralValue init = false := by
      rw [Tree.isLiteralValue, show p.tree.node init = _ from isCall]
    rw [isStable, noLiteral, isCall]
    rfl
  simp [plan?, shape, notStable]

end ConstantUse

/-- The tree of `var a = t; var t = g(); f(a);` or, if the name is not initialized late, that of
`var t = g(); var a = t; f(a);`. -/
def ConstantUse.copied (late : Bool) : Tree :=
  ⟨#[⟨.identifier "a", some ⟨2⟩⟩, ⟨.identifier "t", some ⟨2⟩⟩,
    ⟨.variableDeclarator ⟨0⟩ (some ⟨1⟩), some ⟨3⟩⟩, ⟨.variableDeclaration .var [⟨2⟩], some ⟨13⟩⟩,
    ⟨.identifier "t", some ⟨7⟩⟩, ⟨.identifier "g", some ⟨6⟩⟩, ⟨.call ⟨5⟩ [], some ⟨7⟩⟩,
    ⟨.variableDeclarator ⟨4⟩ (some ⟨6⟩), some ⟨8⟩⟩, ⟨.variableDeclaration .var [⟨7⟩], some ⟨13⟩⟩,
    ⟨.identifier "f", some ⟨11⟩⟩, ⟨.identifier "a", some ⟨11⟩⟩, ⟨.call ⟨9⟩ [⟨10⟩], some ⟨12⟩⟩,
    ⟨.expressionStatement ⟨11⟩, some ⟨13⟩⟩,
    ⟨.program (if late then [⟨3⟩, ⟨8⟩, ⟨12⟩] else [⟨8⟩, ⟨3⟩, ⟨12⟩]), none⟩]⟩

/-- The name that `a` copies is initialized between `a` and its use. -/
def ConstantUse.early : Tree := copied true

theorem ConstantUse.linked_copied (late : Bool) : (copied late).Linked := by
  cases late <;> exact Tree.linked_of_checks (by decide)

theorem ConstantUse.isTop_copied (late : Bool) : (copied late).IsTop ⟨13⟩ := by
  cases late <;> exact ⟨by decide, by decide⟩

theorem ConstantUse.exists_visits (late : Bool) :
    ∃ p left last b uses, Program.ofTree (copied late) ⟨13⟩ = .ok p ∧
      p.Steady ∧ p.tree = copied late ∧
        Visits (fun p id => isDeclarator (p.node id)) step ⟨p, default⟩ ⟨2⟩ ⟨p, default⟩ left last ∧
        p.bindingOf? ⟨1⟩ = some b ∧ p.declaratorOf? b = some (⟨7⟩, some ⟨6⟩) ∧
          plan? p default ⟨2⟩ = some ⟨⟨0⟩, ⟨1⟩, uses⟩ ∧ ⟨10⟩ ∈ uses := by
  have linked := linked_copied late
  have isTop := isTop_copied late
  obtain ⟨scopes, made, steady⟩ := Program.exists_steady (copied late) ⟨13⟩ linked isTop
    (by cases late <;> exact Tree.wellBound_of_bindsWell (by decide)) rfl
  have meansA : ((copied late).lexicon ⟨13⟩).meaning? ⟨0⟩ = some ⟨⟨13⟩, "a", .var, ⟨2⟩, ⟨0⟩⟩ := by
    cases late <;> decide
  have meansUse : ((copied late).lexicon ⟨13⟩).meaning? ⟨10⟩ =
      some ⟨⟨13⟩, "a", .var, ⟨2⟩, ⟨0⟩⟩ := by
    cases late <;> decide
  have meansT : ((copied late).lexicon ⟨13⟩).meaning? ⟨1⟩ = some ⟨⟨13⟩, "t", .var, ⟨7⟩, ⟨4⟩⟩ := by
    cases late <;> decide
  have mentions : ∀ id ∈ (copied late).descendants ⟨13⟩,
      ((copied late).lexicon ⟨13⟩).meaning? id = some ⟨⟨13⟩, "a", .var, ⟨2⟩, ⟨0⟩⟩ →
        id = ⟨0⟩ ∨ id = ⟨10⟩ := by
    cases late <;> decide
  have isSeen : ((copied late).lexicon ⟨13⟩).look? ((copied late).sight ⟨10⟩) "t" =
      some ⟨⟨13⟩, "t", .var, ⟨7⟩, ⟨4⟩⟩ := by
    cases late <;> decide
  have useAttached : (copied late).isWithin ⟨10⟩ ⟨13⟩ = true := by cases late <;> decide
  have useAfter : (copied late).precedes ⟨2⟩ ⟨10⟩ = true := by cases late <;> decide
  have unwritten := Program.not_writes_of_uses linked isTop (by cases late <;> decide)
    (by cases late <;> decide)
  set p : Program := ⟨copied late, ⟨13⟩, scopes, false⟩ with isProgram
  have sound := steady.sound
  obtain ⟨a, standsA, unwrittenA, belongs⟩ := sound.exists_unwritten (unwritten _) meansA
  obtain ⟨t, standsT, unwrittenT, belongsT⟩ := sound.exists_unwritten (unwritten _) meansT
  have belongsA : p.bindingOf? ⟨0⟩ = some a := belongs _ meansA
  have copies : p.bindingOf? ⟨1⟩ = some t := belongsT _ meansT
  have identifierA : (p.binding a).identifier = ⟨0⟩ := standsA.identifier
  have identifierT : (p.binding t).identifier = ⟨4⟩ := standsT.identifier
  have different : t ≠ a := by
    rintro rfl
    rw [identifierA] at identifierT
    cases identifierT
  have isUse (use : NodeId) : use ∈ (p.binding a).references ↔ use = ⟨10⟩ := by
    rw [sound.mem_references_iff belongsA unwrittenA, identifierA]
    constructor
    · rintro ⟨belongs, other⟩
      have isMeant := (sound.meaning?_eq (belongs.trans belongsA.symm)).trans meansA
      have within := (Program.isWithin_root_of_meaning? sound.rooted isMeant).1
      exact (mentions use ((linked.mem_descendants_iff isTop.allocated).mpr within)
        isMeant).resolve_left other
    · rintro rfl
      exact ⟨belongs _ meansUse, by decide⟩
  have isUnconditional : p.isConstantVariable a = true :=
    (sound.isConstantVariable_eq standsA unwrittenA).trans rfl
  have isResolved : p.resolve? ⟨10⟩ "t" = some t := by
    rw [sound.resolve?_eq useAttached, ← copies, sound.bindingOf?_eq]
    exact congrArg (Option.bind · _) (isSeen.trans meansT.symm)
  have stable : isStable p a ⟨1⟩ = true := by
    refine isStable_of_name rfl copies different (by rw [Binding.isConstant, unwrittenT]; rfl)
      fun use member => ?_
    rw [(isUse use).mp member, isResolved]
  have planned : plan? p default ⟨2⟩ = some ⟨⟨0⟩, ⟨1⟩, (p.binding a).references⟩ := by
    refine plan?_eq_some rfl belongsA identifierA isUnconditional rfl ((isUse ⟨10⟩).mpr rfl)
      (fun use member => ?_) stable
    rw [(isUse use).mp member]
    exact useAfter
  -- The declaration of `t` is left alone.
  have silent : step ⟨7⟩ ⟨p, default⟩ = .ok false ⟨p, default⟩ := by
    have unplanned : plan? p default ⟨7⟩ = none := plan?_eq_none rfl rfl
    rw [step, program_bind, context_bind, unplanned]
    rfl
  obtain ⟨changed, last, ran, -⟩ := (lightens steady).exists_ok default
  have visited : visit (fun p id => isDeclarator (p.node id)) step ⟨p, default⟩ =
      .ok changed last := ran
  have split : p.nodes.filter (fun id => isDeclarator (p.node id)) =
      (if late then [] else [⟨7⟩]) ++ ⟨2⟩ :: (if late then [⟨7⟩] else []) := by
    cases late <;> rfl
  have front : ∀ other ∈ if late then [] else [⟨7⟩],
      step other ⟨p, default⟩ = .ok false ⟨p, default⟩ := by
    cases late
    · exact List.forall_mem_singleton.mpr silent
    · exact List.forall_mem_nil _
  obtain ⟨left, visits⟩ := visits_first split front (by cases late <;> rfl) visited
    fun _ => step_ne_false planned
  refine ⟨p, left, last, t, _, made, steady, rfl, visits, copies, ?_, planned, (isUse _).mpr rfl⟩
  rw [Program.declaratorOf?_eq_some_iff, identifierT]
  exact ⟨standsT.declaration, rfl⟩

/-- A use of a constant is replaced by a name that is initialized in front of the constant. -/
theorem Program.Reached.exists_postpones_reads_iff : ∃ p left last,
    Program.ofTree (ConstantUse.copied false) ⟨13⟩ = .ok p ∧
    Visits (fun p id => ConstantUse.isDeclarator (p.node id)) ConstantUse.step ⟨p, default⟩ ⟨2⟩
      ⟨p, default⟩ left last ∧
      ∃ constant, ∃ uses : List NodeId, p.bindingOf? ⟨0⟩ = some constant ∧
        (∀ use, use ∈ uses ↔ p.bindingOf? use = some constant ∧ use ≠ ⟨0⟩) ∧
        (⟨10⟩ ∈ uses ∧ p.tree.precedes ⟨7⟩ ⟨10⟩ = true) ∧
        (∀ use ∈ uses, p.tree.precedes ⟨7⟩ use = true → p.tree.precedes ⟨7⟩ ⟨2⟩ = true) ∧
          ∀ use ∈ uses, ¬(p.tree.precedes ⟨2⟩ ⟨7⟩ = true ∧ p.tree.precedes ⟨7⟩ use = true) := by
  obtain ⟨p, left, last, b, uses, made, steady, isTree, visits, copies, declared,
    planned, member⟩ :=
      ConstantUse.exists_visits false
  have sorted := steady.sound.rooted.sorted_of_isSorted
    (by rw [isTree]; exact (show (ConstantUse.copied false).isSorted = true by decide))
  have shape : p.node ⟨2⟩ = .variableDeclarator ⟨0⟩ (some ⟨1⟩) := by
    rw [Program.node, isTree]
    rfl
  obtain ⟨constant, _, belongs, plannedToo, isUse, -, ordered⟩ :=
    postpones_reads_iff
      (.made (ConstantUse.linked_copied false) (ConstantUse.isTop_copied false) made)
        steady.sound.verify steady.wellBound sorted visits shape copies declared
  obtain rfl := (ConstantUse.Plan.mk.inj (Option.some.inj (planned.symm.trans plannedToo))).2.2
  have apart :
      ∀ use ∈ uses, ¬(p.tree.precedes ⟨2⟩ ⟨7⟩ = true ∧ p.tree.precedes ⟨7⟩ use = true) := by
    rintro use - ⟨behind, -⟩
    rw [isTree] at behind
    exact absurd behind (by decide)
  have before : p.tree.precedes ⟨7⟩ ⟨10⟩ = true := by
    rw [isTree]
    decide
  exact ⟨p, left, last, made, visits, constant, uses, belongs, isUse, ⟨member, before⟩,
    ordered.mpr apart, apart⟩

/-- A use of a constant is replaced by a name that is initialized in between: behind the constant
and in front of the use. -/
theorem Rule.exists_postpones_read :
    ∃ p left last b uses, Program.ofTree ConstantUse.early ⟨13⟩ = .ok p ∧
      (∃ changed, Rule.run .constInlining ⟨p, default⟩ = .ok changed last) ∧
      Visits (fun p id => ConstantUse.isDeclarator (p.node id)) ConstantUse.step ⟨p, default⟩ ⟨2⟩
        ⟨p, default⟩ left last ∧
        ConstantUse.plan? p default ⟨2⟩ = some ⟨⟨0⟩, ⟨1⟩, uses⟩ ∧ p.bindingOf? ⟨1⟩ = some b ∧
          p.declaratorOf? b = some (⟨7⟩, some ⟨6⟩) ∧
            ¬∀ use ∈ uses, p.tree.precedes ⟨7⟩ use = true → p.tree.precedes ⟨7⟩ ⟨2⟩ = true := by
  obtain ⟨p, left, last, b, uses, made, -, isTree, visits, copies, declared, planned, isUse⟩ :=
    ConstantUse.exists_visits true
  refine ⟨p, left, last, b, uses, made, visits.run, visits, planned, copies, declared,
    fun ordered => ?_⟩
  have inFront := ordered ⟨10⟩ isUse
  rw [isTree] at inFront
  exact absurd (inFront (by decide)) (by decide)

end Unravel
