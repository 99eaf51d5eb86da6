import Unravel.Proofs.Simplify.Called
import Unravel.Proofs.Simplify.Landing

/-!
What is left of the calls of a function declaration when those that can be expanded have been: at
each of them a name of the function's expression means something else
(`Program.blocked_of_expandNamed`). The calls inside of others come first, so that all calls that an
argument brings with it are blocked already (`Program.Sweep`). Only the function itself, as an
argument of its own, can become the callee of a call that has not been there.
-/

namespace Unravel

theorem Tree.Linked.length_ancestors_lt_of_mem {t : Tree} {id outer : NodeId} (linked : t.Linked)
    (above : outer ∈ t.ancestors id) : (t.ancestors outer).length < (t.ancestors id).length := by
  induction id using linked.induction with
  | step id induction =>
    obtain ⟨parent, held, place⟩ := linked.mem_ancestors_iff.mp above
    rw [linked.ancestors_of_parent held, List.length_cons, Nat.lt_succ_iff]
    rcases place with rfl | place
    · exact Nat.le_refl _
    · exact Nat.le_of_lt (induction parent held place)

namespace Call

variable {p : Program} {callee call : NodeId}

theorem callOf?_eq_some_iff : callOf? p callee = some call ↔
    p.tree.parent? callee = some call ∧ ∃ arguments, p.node call = .call callee arguments := by
  rw [callOf?, Option.bind_eq_bind, Option.bind_eq_some_iff]
  constructor
  · rintro ⟨parent, held, found⟩
    split at found
    · rename_i first arguments shape
      rw [Option.ite_none_right_eq_some, Option.some.injEq] at found
      obtain ⟨rfl, rfl⟩ := found
      exact ⟨held, arguments, shape⟩
    · cases found
  · rintro ⟨held, arguments, shape⟩
    exact ⟨call, held, by simp only [shape, if_true]⟩

theorem callOf?_injective (first second call : NodeId) (isCall : call ∈ callOf? p first)
    (isCallToo : call ∈ callOf? p second) : first = second := by
  obtain ⟨-, _, shape⟩ := callOf?_eq_some_iff.mp isCall
  obtain ⟨-, _, shapeToo⟩ := callOf?_eq_some_iff.mp isCallToo
  exact (Node.call.inj (shape.symm.trans shapeToo)).1

theorem pairwise_innermostFirst (p : Program) (calls : List NodeId) :
    (innermostFirst p calls).Pairwise fun earlier later =>
      (p.tree.ancestors later).length ≤ (p.tree.ancestors earlier).length := by
  rw [innermostFirst, List.pairwise_map]
  let depths := calls.map fun call => (call, (p.tree.ancestors call).length)
  let deeper (a b : NodeId × Nat) : Bool := decide (b.2 ≤ a.2)
  have sorted : (depths.mergeSort deeper).Pairwise fun a b => deeper a b = true :=
    List.pairwise_mergeSort (fun a b c => by simp only [deeper, decide_eq_true_eq]; omega)
      (fun a b => by simp only [deeper, Bool.or_eq_true, decide_eq_true_eq]; omega) depths
  refine sorted.imp_of_mem fun {a b} isFirst isSecond ordered => ?_
  obtain ⟨_, -, rfl⟩ := List.mem_map.mp (List.mem_mergeSort.mp isFirst)
  obtain ⟨_, -, rfl⟩ := List.mem_map.mp (List.mem_mergeSort.mp isSecond)
  exact of_decide_eq_true ordered

/-- What may be expanded is named, its name is not written, and it is a template. -/
theorem of_plan? {c : Context} {function expression : NodeId} {binding : BindingId}
    (plan : plan? p c function = some (binding, expression)) :
    ∃ f own, p.node function = .function f ∧ f.name = some own ∧ p.bindingOf? own = some binding ∧
      (p.binding binding).isConstant = true ∧ p.template? function = some expression := by
  simp only [plan?, Option.bind_eq_bind, Option.bind_eq_some_iff] at plan
  obtain ⟨f, isFunction, own, isName, first, belongs, plan⟩ := plan
  split at plan
  · rename_i passes
    obtain ⟨returned, template, same⟩ := Option.bind_eq_some_iff.mp plan
    obtain ⟨rfl, rfl⟩ := Prod.mk.inj (Option.some.inj same)
    rw [Bool.and_eq_true] at passes
    exact ⟨f, own, Node.function?_eq_some_iff.mp isFunction, isName, belongs, passes.1, template⟩
  · cases plan

end Call

namespace Program

variable {p after : Program} {c : Context} {w : Workspace} {e : Expansion} {d : Declaration}
  {function expression call value id : NodeId} {grown : Tree} {label : String}

theorem isSelfRecursive_of_template? (template : p.template? function = some expression) :
    p.isSelfRecursive function = false := by
  rw [template?, Option.bind_eq_bind, Option.bind_eq_some_iff] at template
  obtain ⟨f, -, template⟩ := template
  rw [Option.bind_eq_bind, Option.bind_eq_some_iff] at template
  obtain ⟨returned, -, template⟩ := template
  rw [Option.ite_none_left_eq_some] at template
  by_contra recursive
  simp_all

section Start

variable {own : NodeId} {f : Function NodeId} {binding : BindingId} (steady : p.Steady)
  (attached : p.tree.isWithin function p.root = true) (shape : p.node function = .function f)
  (isDeclaration : f.kind = .declaration) (isName : f.name = some own)
  (belongs : p.bindingOf? own = some binding) (constant : (p.binding binding).isConstant = true)

include steady attached shape isDeclaration isName belongs constant

theorem Steady.exists_declaration :
    ∃ d, d.identifier = own ∧ p.lexicon.meaning? own = some d ∧ d ∈ p.tree.declarationsAt function ∧
      (p.tree.scopesAround function).head? = some d.owner ∧ ∀ id, ¬p.lexicon.Writes d id := by
  have linked := steady.linked
  have sound := steady.sound
  obtain ⟨other, means, stands⟩ := sound.exists_of_bindingOf? belongs
  obtain ⟨name, spelled⟩ := Option.isSome_iff_exists.mp (sound.isIdentifier_of_meaning? means)
  have isRoot : p.root ∈ p.tree.scopesAround function := by
    obtain ⟨body, isProgram⟩ := sound.rooted.isProgram
    refine Tree.mem_scopesAround.mpr ⟨(Tree.isWithin_iff.mp attached).resolve_left ?_, ?_⟩
    · rintro rfl
      rw [shape] at isProgram
      cases isProgram
    · rw [Tree.opens, Tree.scopeKind?, show p.tree.node p.root = _ from isProgram]
      rfl
  obtain ⟨owner, around⟩ := List.isSome_head?.mpr (List.ne_nil_of_mem isRoot) |>
    Option.isSome_iff_exists.mp
  let d : Declaration := ⟨owner, name, .function, function, own⟩
  have declares : d ∈ p.tree.declarationsAt function := by
    have part : own ∈ (p.tree.node function).part .name := by
      rw [show p.tree.node function = _ from shape]
      simp [Node.part, isName]
    simp only [Tree.declarationsAt, show p.tree.node function = _ from shape, Node.tag,
      isDeclaration, if_true]
    rw [show p.tree.node function = _ from shape] at part
    exact List.mem_append_left _ (Tree.mem_declaredNames.mpr ⟨around, rfl, rfl, part, spelled⟩)
  have member : d ∈ p.lexicon.declared := (linked.mem_declared steady.isTop).mpr ⟨function,
    attached, declares⟩
  have bound : p.lexicon.binder? owner name = some other := by
    rw [← means]
    exact ((linked.regular steady.isTop).meaning?_of_declared member).symm
  have boundOther := Lexicon.meaning?_some means
  have found : p.scopes.find? other.owner other.name = some binding := by
    rw [← belongs, sound.bindingOf?_eq, means, Option.bind_some]
  have unwritten := (sound.isConstant_iff boundOther found).mp constant
  -- A second declaration of the name would write it.
  have same : d = other := by
    by_contra different
    exact unwritten own (.inr ⟨d, member, rfl, different, bound⟩)
  exact ⟨d, rfl, same ▸ means, declares, around, same ▸ unwritten⟩

omit constant isDeclaration in
theorem Steady.inlinable (structured : p.Structured)
    (template : p.template? function = some expression) (means : p.lexicon.meaning? own = some d)
    (declares : d ∈ p.tree.declarationsAt function)
    (around : (p.tree.scopesAround function).head? = some d.owner)
    (unwritten : ∀ id, ¬p.lexicon.Writes d id) (named : d.name ≠ "undefined") :
    p.Inlinable d function expression := by
  have linked := steady.linked
  have sound := steady.sound
  have returned := singleReturn?_of_template? template
  have isAttached {id : NodeId} (inside : p.tree.isWithin id function = true) :
      p.isAttached id = true := by
    rw [isAttached_eq linked steady.isTop.top]
    exact linked.isWithin_trans inside attached
  have isSealed {id : NodeId} (inside : p.tree.isWithin id function = true)
      (isOperand : (p.tree.node id).isOperand = true) : p.tree.Sealed id :=
    structured.sorted.isSealed linked (isAttached inside)
      (linked.allocated_of_isWithin (linked.isWithin_trans inside attached) steady.isTop.allocated)
      isOperand
  refine ⟨steady, attached, returned, Lexicon.meaning?_some means, around, declares, named,
    ?_, ?_, ?_, ?_⟩
  · intro id inside isUse isMeant
    have different : id ≠ d.identifier := by
      rintro rfl
      rw [linked.isUse_role_of_binds (linked.binds_of_mem declares)] at isUse
      cases isUse
    have bound := Lexicon.meaning?_some means
    have found : p.scopes.find? d.owner d.name = some binding := by
      rw [← belongs, sound.bindingOf?_eq, means, Option.bind_some]
    have reads := ((linked.regular steady.isTop).reads_or_writes isMeant different).resolve_right
      (unwritten id)
    have isReference := ((sound.describes.references d binding bound found).2 id).mpr reads
    have recursive : p.isSelfRecursive function = true := by
      refine List.any_eq_true.mpr ⟨binding, ?_, List.any_eq_true.mpr ⟨id, isReference, inside⟩⟩
      simp [ownBindings, shape, Node.function?, isName, belongs]
    rw [isSelfRecursive_of_template? template] at recursive
    cases recursive
  · intro id other inside isMeant declaresOther kind isUse
    obtain ⟨_, isBound, stands⟩ := sound.exists_of_meaning? isMeant
    exact steady.reads_of_template? template isUse isBound (stands.declaration.trans declaresOther)
      (stands.kind.trans kind)
  · refine isSealed (linked.isWithin_of_singleReturn? returned) ?_
    obtain ⟨g, only, -, block, isReturned⟩ := Tree.of_singleReturn? returned
    obtain ⟨body, statement, bodyHeld, onlyHeld, held⟩ := linked.exists_of_singleReturn? returned
    have above : p.tree.parent? expression = some only := by
      rw [← linked.mem_children, isReturned]
      exact List.mem_singleton_self _
    obtain rfl := Option.some.inj (held.symm.trans above)
    have inside := linked.isWithin_trans (linked.isWithin_of_parent onlyHeld)
      (linked.isWithin_of_parent bodyHeld)
    exact structured.sorted.isOperand_child (isAttached inside) (linked.mem_children.mpr above)
      (by rw [isReturned]; rfl)
  · intro part isPart id held
    have isPlace : part ∈ [.target, .name, .params] := List.mem_cons_of_mem _ isPart
    exact isSealed (linked.isWithin_of_parent (linked.parent?_of_mem_part held))
      (Node.isOperand_of_isPattern (steady.wellBound.pattern (.place isPlace held)))

end Start

theorem Inlinable.mem_calls (inlinable : p.Inlinable d function expression) {binding : BindingId}
    (found : p.scopes.find? d.owner d.name = some binding)
    (unwritten : ∀ id, ¬p.lexicon.Writes d id) :
    call ∈ (p.binding binding).references.filterMap (Call.callOf? p) ↔
      ∃ callee arguments, p.CallsTo d call callee arguments := by
  have steady := inlinable.steady
  have linked := steady.linked
  have references (id : NodeId) :=
    (steady.sound.describes.references d binding inlinable.bound found).2 id
  rw [List.mem_filterMap]
  constructor
  · rintro ⟨callee, isReference, isCall⟩
    obtain ⟨-, arguments, shape⟩ := Call.callOf?_eq_some_iff.mp isCall
    exact ⟨callee, arguments, shape, Lexicon.meaning?_of_reads ((references callee).mp isReference)⟩
  · rintro ⟨callee, arguments, calls⟩
    have isUse := calls.isUse steady
    have different : callee ≠ d.identifier := by
      rintro rfl
      rw [linked.isUse_role_of_binds (linked.binds_of_mem inlinable.declares)] at isUse
      cases isUse
    have reads :=
      ((linked.regular steady.isTop).reads_or_writes calls.means different).resolve_right
        (unwritten callee)
    exact ⟨callee, (references callee).mpr reads,
      Call.callOf?_eq_some_iff.mpr ⟨calls.held steady, arguments, calls.shape⟩⟩

/-- Part of a run over the calls of a function, those inside of others first: the calls that are not
still to come are blocked. -/
structure Sweep (p : Program) (d : Declaration) (function expression : NodeId)
    (pending : List NodeId) : Prop where
  inlinable : p.Inlinable d function expression
  allocated : ∀ call ∈ pending, p.tree.Allocated call
  ready : ∀ call ∈ pending, p.tree.isWithin call p.root = true → p.Ready d call
  inward : pending.Pairwise fun earlier later => p.tree.isWithin later p.root = true →
    p.tree.isWithin later earlier = true → later = earlier
  covered : ∀ call callee arguments, p.CallsTo d call callee arguments →
    call ∈ pending ∨ p.meansSameAt function expression call = false

namespace Sweep

variable {rest pending : List NodeId} {changed : Bool}

theorem skip (sweep : p.Sweep d function expression (call :: rest))
    (blocked : p.tree.isWithin call p.root = true →
      p.meansSameAt function expression call = false) :
    p.Sweep d function expression rest where
  inlinable := sweep.inlinable
  allocated id member := sweep.allocated id (List.mem_cons_of_mem _ member)
  ready id member := sweep.ready id (List.mem_cons_of_mem _ member)
  inward := (List.pairwise_cons.mp sweep.inward).2
  covered id callee arguments calls := by
    rcases sweep.covered id callee arguments calls with pending | isBlocked
    · rcases List.mem_cons.mp pending with rfl | later
      · exact .inr (blocked (calls.attached sweep.inlinable.steady))
      · exact .inl later
    · exact .inr isBlocked

/-- An expanded call leaves no new call that could be expanded: those that come with its arguments
are copies of blocked ones. -/
theorem unfold (sweep : p.Sweep d function expression (call :: rest))
    (unfolding : p.Unfolding d function expression call e value grown after)
    (foreign : ∀ argument ∈ e.arguments, p.lexicon.meaning? argument ≠ some d) :
    after.Sweep d function expression rest := by
  have linked := unfolding.steady.linked
  have expanded := unfolding.expanded
  obtain ⟨first, inward⟩ := List.pairwise_cons.mp sweep.inward
  have allocated {id : NodeId} (member : id ∈ rest) : p.tree.Allocated id :=
    sweep.allocated id (List.mem_cons_of_mem _ member)
  -- What is still to come and still there stands outside the call.
  have outside {id : NodeId} (member : id ∈ rest)
      (attachedAfter : after.tree.isWithin id after.root = true) :
      p.tree.isWithin id p.root = true ∧ p.tree.isWithin id call = false :=
    (expanded.attached_iff.mp attachedAfter).resolve_right
      (by rw [expanded.not_isWithin_value (allocated member)]; exact Bool.false_ne_true)
  have blocks {site : NodeId} (attachedAfter : after.tree.isWithin site after.root = true)
      (clashes : ∃ id name, after.Clash function expression site id name) :
      after.meansSameAt function expression site = false := by
    have returned := unfolding.inlinable_after.returned
    have allocatedAfter := unfolding.afterSteady.linked.allocated_of_singleReturn? returned
    rw [Bool.eq_false_iff]
    intro same
    obtain ⟨id, name, clash⟩ := clashes
    exact (unfolding.afterSteady.sound.meansSameAt_iff attachedAfter allocatedAfter).mp same id name
      clash
  have clashes {site : NodeId} (attached : p.tree.isWithin site p.root = true)
      (blocked : p.meansSameAt function expression site = false) :
      ∃ id name, p.Clash function expression site id name := by
    have allocated := linked.allocated_of_singleReturn? unfolding.inlinable.returned
    by_contra none_
    push Not at none_
    rw [(unfolding.steady.sound.meansSameAt_iff attached allocated).mpr none_] at blocked
    cases blocked
  refine ⟨unfolding.inlinable_after, fun id member => ?_, fun id member attachedAfter => ?_, ?_, ?_⟩
  · exact expanded.edited.allocated.mpr (expanded.building.grows.allocated (allocated member))
  · obtain ⟨attached, isOutside⟩ := outside member attachedAfter
    exact unfolding.ready_after foreign (sweep.ready id (List.mem_cons_of_mem _ member) attached)
      isOutside
  · refine inward.imp_of_mem fun {earlier later} _ member apart attachedAfter within => ?_
    obtain ⟨attached, isOutside⟩ := outside member attachedAfter
    rw [expanded.isWithin_of_outside attached isOutside] at within
    exact apart attached within
  · intro site callee arguments calls
    have attachedAfter := calls.attached unfolding.afterSteady
    rcases unfolding.calls_cases foreign calls with
      ⟨given, callsBefore, isOutside⟩ | ⟨original, root, root', id, given,
        callsBefore, piece, image⟩
    · have attached := callsBefore.attached unfolding.steady
      rcases sweep.covered site callee given callsBefore with pending | blocked
      · rcases List.mem_cons.mp pending with rfl | later
        · rw [Tree.isWithin_self] at isOutside
          cases isOutside
        · exact .inl later
      · obtain ⟨id, name, clash⟩ := clashes attached blocked
        exact .inr (blocks attachedAfter
          ⟨id, name, unfolding.clash_of_outside clash callsBefore.shape attached isOutside⟩)
    · -- The calls inside the expanded one have had their turn.
      have attached := callsBefore.attached unfolding.steady
      have held : p.tree.parent? root = some call := by
        obtain ⟨_, shape⟩ := expanded.isCall
        rw [← linked.mem_children, show p.tree.node call = _ from shape]
        exact List.mem_cons_of_mem _ piece.mem_arguments
      have inside := image.isWithin linked
      have within := linked.isWithin_trans inside (linked.isWithin_of_parent held)
      have different : original ≠ call := by
        rintro rfl
        have same := linked.isWithin_antisymm inside (linked.isWithin_of_parent held)
        exact linked.parent?_ne_self root (same ▸ held)
      rcases sweep.covered original id given callsBefore with pending | blocked
      · exact absurd (first original ((List.mem_cons.mp pending).resolve_left different) attached
          within) different
      · obtain ⟨name, spelled, clash⟩ := clashes attached blocked
        exact .inr (blocks attachedAfter
          ⟨name, spelled, unfolding.clash_of_argument clash piece image
            callsBefore.shape calls.shape⟩)

theorem step (sweep : p.Sweep d function expression (call :: rest))
    (done : SimplifyM.ifAttached call (SimplifyM.expandCall function expression call label) ⟨p, c⟩ =
      .ok changed w) : w.program.Sweep d function expression rest := by
  have steady := sweep.inlinable.steady
  have linked := steady.linked
  rw [SimplifyM.ifAttached, SimplifyM.program_bind, isAttached_eq linked steady.isTop.top] at done
  split at done
  · rename_i attached
    obtain ⟨⟨callee, arguments, calls, foreign⟩, isSealed⟩ := sweep.ready call
      (List.mem_cons_self ..) attached
    cases changed with
    | true =>
      obtain ⟨same, e, value, grown, isExpansion, expanded⟩ :=
        steady.exists_expanded sweep.inlinable.returned done
      obtain ⟨-, _, shape⟩ := mapM_of_expansion? isExpansion
      obtain ⟨rfl, rfl⟩ := Node.call.inj (calls.shape.symm.trans shape)
      exact sweep.unfold ⟨sweep.inlinable, expanded, isExpansion, isSealed, same, ⟨callee, calls⟩⟩
        foreign
    | false =>
      rw [SimplifyM.expandCall, SimplifyM.program_bind] at done
      simp only [calls.shape] at done
      split at done
      · obtain ⟨_, _, -, done⟩ := SimplifyM.exists_of_bind_ok done
        obtain ⟨_, _, -, done⟩ := SimplifyM.exists_of_bind_ok done
        cases (EStateM.Result.ok.inj done).1
      · rename_i differs
        obtain ⟨-, rfl⟩ := EStateM.Result.ok.inj done
        exact sweep.skip fun _ => by rwa [Bool.not_eq_true] at differs
  · rename_i detached
    obtain ⟨-, rfl⟩ := EStateM.Result.ok.inj done
    exact sweep.skip fun attached => absurd attached detached

theorem run (sweep : p.Sweep d function expression pending)
    (done : SimplifyM.anyChange pending (fun call => SimplifyM.ifAttached call
      (SimplifyM.expandCall function expression call label)) ⟨p, c⟩ = .ok changed w) :
    w.program.Sweep d function expression [] := by
  induction pending generalizing p c changed with
  | nil =>
    obtain ⟨-, rfl⟩ := EStateM.Result.ok.inj done
    exact sweep
  | cons call rest induction =>
    rw [SimplifyM.anyChange_cons] at done
    obtain ⟨first, mid, stepped, others⟩ := SimplifyM.exists_of_bind_ok done
    obtain ⟨_, last, ran, finished⟩ := SimplifyM.exists_of_bind_ok others
    obtain ⟨-, rfl⟩ := EStateM.Result.ok.inj finished
    exact induction (sweep.step stepped) ran

theorem start (inlinable : p.Inlinable d function expression) (structured : p.Structured)
    {binding : BindingId} (found : p.scopes.find? d.owner d.name = some binding)
    (unwritten : ∀ id, ¬p.lexicon.Writes d id)
    (foreign : ∀ call callee arguments argument, p.CallsTo d call callee arguments →
      argument ∈ arguments →
      p.lexicon.meaning? argument ≠ some d) :
    p.Sweep d function expression
      (Call.innermostFirst p ((p.binding binding).references.filterMap (Call.callOf? p))) := by
  have steady := inlinable.steady
  have linked := steady.linked
  have mem_iff {call : NodeId} : call ∈ (p.binding binding).references.filterMap (Call.callOf? p) ↔
      ∃ callee arguments, p.CallsTo d call callee arguments := inlinable.mem_calls found unwritten
  refine ⟨inlinable, fun call member => ?_, fun call member attached => ?_, ?_,
    fun call callee arguments calls => ?_⟩
  · obtain ⟨callee, arguments, calls⟩ := mem_iff.mp (Call.mem_innermostFirst.mp member)
    exact linked.allocated_parent (calls.held steady)
  · obtain ⟨callee, arguments, calls⟩ := mem_iff.mp (Call.mem_innermostFirst.mp member)
    refine ⟨⟨callee, arguments, calls,
      fun argument => foreign call callee arguments argument calls⟩, ?_⟩
    refine structured.sorted.isSealed linked ?_ (linked.allocated_parent (calls.held steady)) ?_
    · rw [isAttached_eq linked steady.isTop.top, attached]
    · rw [show p.tree.node call = _ from calls.shape]
      rfl
  · refine (Call.pairwise_innermostFirst p _).imp fun {earlier later} ordered _ within => ?_
    rcases Tree.isWithin_iff.mp within with same | above
    · exact same
    · exact absurd (linked.length_ancestors_lt_of_mem above) (Nat.not_lt.mpr ordered)
  · exact .inl (Call.mem_innermostFirst.mpr (mem_iff.mpr ⟨callee, arguments, calls⟩))

end Sweep

/-- When the calls of a function declaration have been expanded, a name of its expression means
something else at each call that is left. -/
theorem blocked_of_expandNamed {own : NodeId} {f : Function NodeId} {binding : BindingId}
    {changed : Bool} (steady : p.Steady) (structured : p.Structured)
    (attached : p.isAttached function = true) (shape : p.node function = .function f)
    (isDeclaration : f.kind = .declaration) (isName : f.name = some own)
    (plan : Call.plan? p c function = some (binding, expression))
    (named : (p.node own).identifier? ≠ some "undefined")
    (foreign : ∀ call callee arguments argument, p.isAttached call = true →
      p.node call = .call callee arguments →
      p.bindingOf? callee = some binding → argument ∈ arguments →
      p.bindingOf? argument ≠ some binding)
    (done : Call.expandNamed function ⟨p, c⟩ = .ok changed w) :
    w.program.tree.singleReturn? function = some expression ∧
      ∃ current, w.program.bindingOf? own = some current ∧ ∀ call callee arguments,
        w.program.isAttached call = true → w.program.node call = .call callee arguments →
          w.program.bindingOf? callee = some current →
          w.program.meansSameAt function expression call = false := by
  have linked := steady.linked
  have sound := steady.sound
  obtain ⟨g, name, isFunction, isOwn, belongs, constant, template⟩ := Call.of_plan? plan
  obtain rfl := Node.function.inj (shape.symm.trans isFunction)
  obtain rfl := Option.some.inj (isName.symm.trans isOwn)
  have within := (isAttached_eq linked steady.isTop.top function).symm.trans attached
  obtain ⟨d, rfl, means, declares, around, unwritten⟩ :=
    steady.exists_declaration within shape isDeclaration isName belongs constant
  have found : p.scopes.find? d.owner d.name = some binding := by
    rw [← belongs, sound.bindingOf?_eq, means, Option.bind_some]
  have otherName : d.name ≠ "undefined" := by
    rintro same
    exact named (same ▸ (linked.introduces_of_mem declares).spelled)
  have inlinable := steady.inlinable within shape isName belongs structured template means declares
    around unwritten otherName
  have sweep := Sweep.start inlinable structured found unwritten
    fun call callee arguments argument calls given
      isMeant => by
    refine foreign call callee arguments argument ?_ calls.shape ?_ given ?_
    · rw [isAttached_eq linked steady.isTop.top, calls.attached steady]
    · rw [sound.bindingOf?_eq, calls.means, Option.bind_some, found]
    · rw [sound.bindingOf?_eq, isMeant, Option.bind_some, found]
  rw [Call.expandNamed, SimplifyM.program_bind, SimplifyM.context_bind] at done
  simp only [plan, SimplifyM.record_bind] at done
  have swept := sweep.run done
  have soundAfter := swept.inlinable.steady.sound
  have meansAfter := swept.inlinable.meaning?_identifier
  obtain ⟨current, belongsAfter, -⟩ := soundAfter.exists_of_meaning? meansAfter
  refine ⟨swept.inlinable.returned, current, belongsAfter,
    fun call callee arguments _ isCall calls => ?_⟩
  rw [← belongsAfter, soundAfter.bindingOf?_eq, soundAfter.bindingOf?_eq] at calls
  have isMeant := soundAfter.bind_find?_inj (fun _ => Lexicon.meaning?_some)
    (fun _ => Lexicon.meaning?_some) calls
  exact (swept.covered call callee arguments ⟨isCall, isMeant.trans meansAfter⟩).resolve_left
    List.not_mem_nil

theorem exists_expandNamed {binding : BindingId}
    (plan : Call.plan? p c function = some (binding, expression))
    (single : (p.binding binding).references.filterMap (Call.callOf? p) = [call])
    (attached : p.isAttached call = true)
    (expands :
      ∀ label c, ∃ w, SimplifyM.expandCall function expression call label ⟨p, c⟩ = .ok true w) :
    ∃ label c' w, SimplifyM.expandCall function expression call label ⟨p, c'⟩ = .ok true w ∧
      Call.expandNamed function ⟨p, c⟩ = .ok true w := by
  have order : Call.innermostFirst p [call] = [call] := by simp [Call.innermostFirst]
  let event : Event :=
    ⟨.inlineCandidateIdentified, (p.binding binding).name ++ " is a single-return template",
      some function, none⟩
  let c' : Context := { c with journal := c.journal.record event }
  obtain ⟨w, done⟩ := expands (p.binding binding).name c'
  have step : SimplifyM.ifAttached call
      (SimplifyM.expandCall function expression call (p.binding binding).name) ⟨p, c'⟩ =
        .ok true w := by
    rw [SimplifyM.ifAttached, SimplifyM.program_bind, if_pos attached, done]
  refine ⟨_, c', w, done, ?_⟩
  rw [Call.expandNamed, SimplifyM.program_bind, SimplifyM.context_bind]
  simp only [plan, SimplifyM.record_bind, single, order]
  rw [SimplifyM.anyChange_cons, SimplifyM.bind_of_ok _ step]
  rfl

/-- The tree of `function f(x) { return x; } f(…)(z);` with a name for an argument. -/
def applied (argument : String) : Tree :=
  ⟨#[⟨.identifier "f", some ⟨5⟩⟩, ⟨.identifier "x", some ⟨5⟩⟩, ⟨.identifier "x", some ⟨3⟩⟩,
    ⟨.return_ (some ⟨2⟩), some ⟨4⟩⟩, ⟨.block [⟨3⟩], some ⟨5⟩⟩,
    ⟨.function ⟨.declaration, some ⟨0⟩, [⟨1⟩], ⟨4⟩, false, false⟩, some ⟨12⟩⟩,
    ⟨.identifier "f", some ⟨8⟩⟩, ⟨.identifier argument, some ⟨8⟩⟩, ⟨.call ⟨6⟩ [⟨7⟩], some ⟨10⟩⟩,
    ⟨.identifier "z", some ⟨10⟩⟩, ⟨.call ⟨8⟩ [⟨9⟩], some ⟨11⟩⟩,
    ⟨.expressionStatement ⟨10⟩, some ⟨12⟩⟩, ⟨.program [⟨5⟩, ⟨11⟩], none⟩]⟩

theorem lexicon_applied {argument : String} (isArgument : argument = "f" ∨ argument = "y") :
    let l := (applied argument).lexicon ⟨12⟩
    let d : Declaration := ⟨⟨12⟩, "f", .function, ⟨5⟩, ⟨0⟩⟩
    l.meaning? ⟨0⟩ = some d ∧ l.meaning? ⟨6⟩ = some d ∧
      l.meaning? ⟨2⟩ = some ⟨⟨5⟩, "x", .param, ⟨5⟩, ⟨1⟩⟩ ∧
        l.meaning? ⟨1⟩ = some ⟨⟨5⟩, "x", .param, ⟨5⟩, ⟨1⟩⟩ ∧
        (∀ d ∈ l.declared, l.binder? d.owner d.name = some d) ∧
        (∀ use ∈ (applied argument).descendants ⟨5⟩,
          (l.meaning? use).all fun d => d.identifier ≠ ⟨0⟩ || use = ⟨0⟩) ∧
        (∀ id ∈ (applied argument).descendants ⟨12⟩, ((applied argument).role id).writes = false) ∧
        ∀ id ∈ (applied argument).descendants ⟨12⟩, l.meaning? id = some d →
          id = ⟨0⟩ ∨ id = ⟨6⟩ ∨ argument = "f" ∧ id = ⟨7⟩ := by
  rcases isArgument with rfl | rfl <;> decide

theorem exists_planned_applied {argument : String} (isArgument : argument = "f" ∨ argument = "y") :
    ∃ p binding param, ofTree (applied argument) ⟨12⟩ = .ok p ∧ p.Steady ∧ p.Structured ∧
      p.tree = applied argument ∧ p.root = ⟨12⟩ ∧ p.bindingOf? ⟨0⟩ = some binding ∧
        p.bindingOf? ⟨2⟩ = some param ∧
        Call.plan? p default ⟨5⟩ = some (binding, ⟨2⟩) ∧ p.meansSameAt ⟨5⟩ ⟨2⟩ ⟨8⟩ = true ∧
          p.expansion? ⟨5⟩ ⟨8⟩ = some ⟨[⟨some param, .plain⟩], [⟨7⟩]⟩ := by
  have checks : (applied argument).checks = true := rfl
  have isTop : (applied argument).IsTop ⟨12⟩ := ⟨Nat.lt_succ_self 12, rfl⟩
  obtain ⟨scopes, made, steady⟩ := exists_steady (applied argument) ⟨12⟩
    (Tree.linked_of_checks checks) isTop (Tree.wellBound_of_bindsWell rfl) rfl
  have facts := lexicon_applied isArgument
  set p : Program := ⟨applied argument, ⟨12⟩, scopes, false⟩ with isProgram
  change let l := p.lexicon; _ at facts
  obtain ⟨atName, -, atUse, atParam, single, apart, reading, -⟩ := facts
  have unwritten := not_writes steady.linked steady.isTop reading single
  obtain ⟨binding, belongs, stands⟩ := steady.sound.exists_of_meaning? atName
  obtain ⟨param, useBelongs, standsParam⟩ := steady.sound.exists_of_meaning? atUse
  have paramBelongs : p.bindingOf? ⟨1⟩ = some param := by
    rw [steady.sound.bindingOf?_eq, atParam, ← atUse, ← steady.sound.bindingOf?_eq, useBelongs]
  have structured := steady.sound.rooted.structured_of_checks (by rfl) (by rfl)
  have template : p.template? ⟨5⟩ = some ⟨2⟩ :=
    steady.template?_eq_some rfl rfl rfl rfl rfl unwritten (List.append_nil _) atName rfl apart
  have plan : Call.plan? p default ⟨5⟩ = some (binding, ⟨2⟩) := by
    have bound := Lexicon.meaning?_some atName
    have found : p.scopes.find? ⟨12⟩ "f" = some binding := by
      rw [← belongs, steady.sound.bindingOf?_eq, atName, Option.bind_some]
    have constant : (p.binding binding).isConstant = true :=
      (steady.sound.isConstant_iff bound found).mpr (unwritten _)
    have same : Call.plan? p default ⟨5⟩ = (p.bindingOf? ⟨0⟩).bind fun binding =>
        if (p.binding binding).isConstant && true then
        (p.template? ⟨5⟩).bind fun x => some (binding, x)
        else none := rfl
    rw [same, belongs, Option.bind_some, constant, template]
    rfl
  have isExpansion : p.expansion? ⟨5⟩ ⟨8⟩ = some ⟨[⟨some param, .plain⟩], [⟨7⟩]⟩ := by
    rw [← paramBelongs]
    rfl
  have isOwn : p.isTemplateOwn ⟨5⟩ ⟨2⟩ param = true := by
    rw [isTemplateOwn, show (p.binding param).declaration = ⟨5⟩ from standsParam.declaration,
      show (p.binding param).kind = .param from standsParam.kind]
    rfl
  have same : p.meansSameAt ⟨5⟩ ⟨2⟩ ⟨8⟩ = true := by
    have atUse : p.meansSameAt ⟨5⟩ ⟨2⟩ ⟨8⟩ = (((p.bindingOf? ⟨2⟩).any (p.isTemplateOwn ⟨5⟩ ⟨2⟩) ||
        p.resolve? ⟨8⟩ "x" = p.bindingOf? ⟨2⟩) && true) := rfl
    rw [atUse, useBelongs, Option.any_some, isOwn]
    rfl
  exact ⟨p, binding, param, made, steady, structured, rfl, rfl, belongs, useBelongs, plan,
    same, isExpansion⟩

theorem exists_expandNamed_applied {argument : String}
    (isArgument : argument = "f" ∨ argument = "y") :
    ∃ p w binding, ofTree (applied argument) ⟨12⟩ = .ok p ∧ p.Structured ∧
      p.tree = applied argument ∧
      p.root = ⟨12⟩ ∧ p.bindingOf? ⟨0⟩ = some binding ∧
        Call.plan? p default ⟨5⟩ = some (binding, ⟨2⟩) ∧
        Call.expandNamed ⟨5⟩ ⟨p, default⟩ = .ok true w ∧
        ∃ e value grown, e.Piece p w.program.tree ⟨2⟩ value .argument ⟨7⟩ value ∧
          p.Unfolding ⟨⟨12⟩, "f", .function, ⟨5⟩, ⟨0⟩⟩ ⟨5⟩ ⟨2⟩ ⟨8⟩ e value grown w.program := by
  obtain ⟨p, binding, param, made, steady, structured, isTree, isRoot, belongs,
    useBelongs, plan, same, isExpansion⟩ := exists_planned_applied isArgument
  have facts := lexicon_applied isArgument
  rw [← isTree, ← isRoot] at facts
  change let l := p.lexicon; _ at facts
  obtain ⟨atName, atCallee, -, -, -, -, -, mentions⟩ := facts
  have sound := steady.sound
  have linked := steady.linked
  have attached (id : NodeId) (isNode : (applied argument).isWithin id ⟨12⟩ = true) :
      p.tree.isWithin id p.root = true := by
    rw [isTree, isRoot, isNode]
  obtain ⟨f, own, shape, isName, isBound, constant, template⟩ := Call.of_plan? plan
  have isFunction : p.node ⟨5⟩ = .function ⟨.declaration, some ⟨0⟩, [⟨1⟩], ⟨4⟩, false, false⟩ := by
    rw [node, isTree]
    rfl
  obtain rfl := Node.function.inj (shape.symm.trans isFunction)
  obtain rfl := Option.some.inj isName
  obtain ⟨d, isOwn, means, declares, around, unwritten⟩ :=
    steady.exists_declaration (attached ⟨5⟩ rfl) shape rfl rfl belongs constant
  obtain rfl := Option.some.inj (means.symm.trans atName)
  have inlinable := steady.inlinable (attached ⟨5⟩ rfl) shape rfl belongs structured template means
    declares around unwritten (by simp)
  have found : p.scopes.find? p.root "f" = some binding := by
    rw [← belongs, sound.bindingOf?_eq, means, Option.bind_some]
  have calls : p.CallsTo ⟨p.root, "f", .function, ⟨5⟩, ⟨0⟩⟩ ⟨8⟩ ⟨6⟩ [⟨7⟩] := by
    refine ⟨?_, atCallee⟩
    rw [node, isTree]
    rfl
  have single : (p.binding binding).references.filterMap (Call.callOf? p) = [⟨8⟩] := by
    have distinct : ((p.binding binding).references.filterMap (Call.callOf? p)).Nodup :=
      ((sound.describes.references _ binding inlinable.bound found).1).filterMap
        Call.callOf?_injective
    rw [← List.perm_singleton, List.perm_ext_iff_of_nodup distinct (List.nodup_singleton _)]
    intro call
    rw [inlinable.mem_calls found unwritten, List.mem_singleton]
    refine ⟨?_, fun same => same ▸ ⟨_, _, calls⟩⟩
    rintro ⟨callee, arguments, other⟩
    have within := (isWithin_root_of_meaning? sound.rooted other.means).1
    have held := other.held steady
    rw [isTree] at held
    have mention := mentions callee ((linked.mem_descendants_iff steady.isTop.allocated).mpr within)
      other.means
    rcases mention with rfl | rfl | ⟨-, rfl⟩
    · obtain rfl := Option.some.inj held
      cases isFunction.symm.trans other.shape
    · exact (Option.some.inj held).symm
    · obtain rfl := Option.some.inj held
      cases (Node.call.inj (calls.shape.symm.trans other.shape)).1
  have nests : Expansion.Nests ⟨[⟨some param, .plain⟩], [⟨7⟩]⟩ p 65 ⟨2⟩ :=
    Expansion.nests_of_plain (by simp) 64 _
  obtain ⟨label, c, w, done, ran⟩ := exists_expandNamed plan single
    (by rw [isAttached_eq linked steady.isTop.top]; exact attached ⟨8⟩ rfl)
    (exists_expandCall steady isExpansion (attached ⟨8⟩ rfl) (singleReturn?_of_template? template)
      same nests)
  obtain ⟨-, e, value, grown, isExpansionToo, expanded⟩ := exists_expanded steady template done
  obtain rfl := Option.some.inj (isExpansion.symm.trans isExpansionToo)
  have isUse : Expansion.paramOf? ⟨[⟨some param, .plain⟩], [⟨7⟩]⟩ p ⟨2⟩ =
      some (⟨some param, .plain⟩, 0) := by
    have reads : ((p.node ⟨2⟩).isIdentifier && (p.tree.role ⟨2⟩).reads) = true := by
      rw [node, isTree]; rfl
    rw [Expansion.paramOf?, if_pos reads, useBelongs]
    simp
  obtain ⟨copy, image, piece⟩ := (expanded.inlined isExpansion).exists_argument linked
    Tree.isWithin_self isUse rfl rfl
  obtain rfl := (image.eq_root_iff linked expanded.afterSteady.linked).mpr rfl
  have isSealed : p.tree.Sealed ⟨8⟩ := by
    refine structured.sorted.isSealed linked ?_ expanded.allocatedCall (by rw [isTree]; rfl)
    rw [isAttached_eq linked steady.isTop.top, expanded.attached]
  rw [isRoot] at inlinable calls
  exact ⟨p, w, binding, made, structured, isTree, isRoot, belongs, plan, ran, _, copy, grown,
    piece, inlinable, expanded, isExpansion, isSealed, same, ⟨6⟩, calls⟩

/-- What is left in the place of a call with another argument is no call of the function. -/
theorem exists_blocked_of_expandNamed :
    ∃ p w binding, ofTree (applied "y") ⟨12⟩ = .ok p ∧ p.Steady ∧ p.Structured ∧
      Call.plan? p default ⟨5⟩ = some (binding, ⟨2⟩) ∧
      Call.expandNamed ⟨5⟩ ⟨p, default⟩ = .ok true w ∧
      w.program.tree.singleReturn? ⟨5⟩ = some ⟨2⟩ ∧
        ∃ current, w.program.bindingOf? ⟨0⟩ = some current ∧ ∀ call callee arguments,
          w.program.isAttached call = true → w.program.node call = .call callee arguments →
            w.program.bindingOf? callee = some current →
            w.program.meansSameAt ⟨5⟩ ⟨2⟩ call = false := by
  obtain ⟨p, w, binding, made, structured, isTree, isRoot, belongs, plan, ran, e, value,
    grown, -, unfolding⟩ :=
      exists_expandNamed_applied (.inr rfl)
  have steady := unfolding.steady
  have linked := steady.linked
  have facts := lexicon_applied (.inr (Eq.refl "y"))
  rw [← isTree, ← isRoot] at facts
  change let l := p.lexicon; _ at facts
  obtain ⟨atName, -, -, -, -, -, -, mentions⟩ := facts
  have attached : p.isAttached ⟨5⟩ = true := by rw [isAttached, isTree, isRoot]; rfl
  refine ⟨p, w, binding, made, steady, structured, plan, ran,
    blocked_of_expandNamed steady structured attached (by rw [node, isTree]; rfl) rfl rfl plan
      (by rw [node, isTree]; decide) ?_ ran⟩
  intro call callee arguments argument _ shape _ given same
  rw [← belongs, steady.sound.bindingOf?_eq, steady.sound.bindingOf?_eq] at same
  have means := steady.sound.bind_find?_inj (fun _ => Lexicon.meaning?_some)
    (fun _ => Lexicon.meaning?_some) same
  rw [show p.lexicon.meaning? ⟨0⟩ = _ from atName] at means
  have within := (isWithin_root_of_meaning? steady.sound.rooted means).1
  have held : p.tree.parent? argument = some call := by
    rw [← linked.mem_children, show p.tree.node call = _ from shape]
    exact List.mem_cons_of_mem _ given
  rw [node, isTree] at shape
  rw [isTree] at held
  rcases mentions argument ((linked.mem_descendants_iff steady.isTop.allocated).mpr within)
    means with rfl | rfl | ⟨isOther, -⟩
  · obtain rfl := Option.some.inj held
    cases shape
  · obtain rfl := Option.some.inj held
    obtain ⟨rfl, rfl⟩ := Node.call.inj shape
    cases List.mem_singleton.mp given
  · exact absurd isOther (by decide)

/--
The function itself is left in the place of the call if it is its argument, and is called there once
more. -/
theorem exists_not_blocked_of_expandNamed : ∃ p w binding current call callee arguments,
    ofTree (applied "f") ⟨12⟩ = .ok p ∧ p.Steady ∧ p.Structured ∧ p.isAttached ⟨5⟩ = true ∧
      Call.plan? p default ⟨5⟩ = some (binding, ⟨2⟩) ∧
      Call.expandNamed ⟨5⟩ ⟨p, default⟩ = .ok true w ∧
      w.program.bindingOf? ⟨0⟩ = some current ∧ w.program.isAttached call = true ∧
      w.program.node call = .call callee arguments ∧ w.program.bindingOf? callee = some current ∧
      w.program.meansSameAt ⟨5⟩ ⟨2⟩ call = true := by
  obtain ⟨p, w, binding, made, structured, isTree, isRoot, belongs, plan, ran, e, value, grown,
    piece, unfolding⟩ :=
      exists_expandNamed_applied (.inl rfl)
  have steady := unfolding.steady
  have linked := steady.linked
  have expanded := unfolding.expanded
  have soundAfter := unfolding.afterSteady.sound
  have facts := lexicon_applied (.inl (Eq.refl "f"))
  rw [← isTree, ← isRoot] at facts
  change let l := p.lexicon; _ at facts
  obtain ⟨-, -, atUse, -⟩ := facts
  have attached : p.isAttached ⟨5⟩ = true := by rw [isAttached, isTree, isRoot]; rfl
  have attachedOuter : w.program.tree.isWithin ⟨10⟩ w.program.root = true :=
    expanded.attached_iff.mpr (.inl (by rw [isTree, isRoot]; exact ⟨rfl, rfl⟩))
  have shape : p.tree.node ⟨10⟩ = .call ⟨8⟩ [⟨9⟩] := by rw [isTree]; rfl
  have allocated : p.tree.Allocated ⟨10⟩ := by
    have held : p.tree.parent? ⟨8⟩ = some ⟨10⟩ := by rw [isTree]; rfl
    exact linked.allocated_parent held
  -- The instance is the callee of the other call.
  obtain ⟨_, arguments, shapeAfter⟩ := Node.exists_call_of_tag (expanded.mirrors allocated).tag.symm
    shape
  obtain ⟨_, _, original, rfl, -⟩ := (expanded.mirrors allocated).exists_of_call shapeAfter
  obtain ⟨rfl, -⟩ := Node.call.inj (shape.symm.trans original)
  rw [show Node.exchange ⟨8⟩ value ⟨8⟩ = value from if_pos rfl] at shapeAfter
  have held : w.program.tree.parent? value = some ⟨10⟩ := expanded.place.trans (by rw [isTree]; rfl)
  have spelled : (w.program.node value).identifier? = some "f" := by
    obtain ⟨g, mirrors, -⟩ := piece.isInstance.exists_mirrors rfl
    rw [node, mirrors.identifier?, isTree]
    rfl
  have isUse : (w.program.tree.role value).isUse = true := by
    rw [Tree.role_of_call held shapeAfter]
    rfl
  obtain ⟨_, calls⟩ := unfolding.calls
  have means : w.program.lexicon.meaning? value = some ⟨⟨12⟩, "f", .function, ⟨5⟩, ⟨0⟩⟩ := by
    rw [Program.lexicon, unfolding.afterSteady.linked.meaning?_of_isUse expanded.attachedAfter
      spelled isUse, ← Program.lexicon, expanded.scopes_value.2,
      expanded.look?_of_scopes unfolding.isSealed unfolding.sealedValue
        fun owner member => expanded.outside_of_mem_ancestors (linked.mem_beyond member).1]
    exact calls.look?_eq steady
  have meansAfter := unfolding.inlinable_after.meaning?_identifier
  obtain ⟨current, belongsAfter, -⟩ := soundAfter.exists_of_meaning? meansAfter
  refine ⟨p, w, binding, current, ⟨10⟩, value, arguments, made, steady, structured,
    attached, plan, ran, belongsAfter, ?_, shapeAfter, ?_, ?_⟩
  · rw [isAttached_eq unfolding.afterSteady.linked unfolding.afterSteady.isTop.top, attachedOuter]
  · rw [← belongsAfter, soundAfter.bindingOf?_eq, soundAfter.bindingOf?_eq, means, meansAfter]
  · have returned := unfolding.inlinable_after.returned
    rw [soundAfter.meansSameAt_iff attachedOuter
      (unfolding.afterSteady.linked.allocated_of_singleReturn? returned)]
    intro id name clash
    have within := (unfolding.isWithin_iff_of_function unfolding.expression_inside).mp clash.within
    have isExpression : id ∈ p.tree.descendants ⟨2⟩ :=
      (linked.mem_descendants_iff (linked.allocated_of_singleReturn?
        unfolding.inlinable.returned)).mpr within
    rw [isTree] at isExpression
    obtain rfl := List.mem_singleton.mp isExpression
    exact clash.free ⟨_, (unfolding.meaning?_of_function unfolding.expression_inside).trans atUse,
      .inl ⟨rfl, rfl⟩⟩

end Program

end Unravel
