import Unravel.Proofs.Program.Meaning
import Unravel.Proofs.Simplify.Pruned
import Unravel.Proofs.Simplify.Rules
import Unravel.Proofs.Simplify.Shown
import Unravel.Proofs.Simplify.Through
import Unravel.Schedule.Engine

/-!
Declarations whose names are protected stay in a program, whatever is taken out of it
(`Program.Reached.protected_stays`): where they go away, something around them does. Aliases of
dispatchers are taken out by themselves, though, for their names are not looked at.
-/

namespace Unravel

open SimplifyM

/-! ### Protected names -/

namespace Unused

variable {p : Program} {id target : NodeId} {init : Option NodeId} {f : Function NodeId}
  {name : String}

theorem declaredName?_of_declarator (shape : p.node id = .variableDeclarator target init)
    (spelled : (p.node target).identifier? = some name) : declaredName? p id = some target := by
  simp [declaredName?, shape, Node.isIdentifier, spelled]

theorem declaredName?_of_function (shape : p.node id = .function f)
    (isDeclaration : f.kind = .declaration) :
    declaredName? p id = f.name := by
  simp [declaredName?, shape, isDeclaration]

end Unused

/-- Whether a node of a program declares a protected name. -/
def Program.Protects (p : Program) (c : Context) (d : NodeId) : Prop :=
  ∃ name text, Unused.declaredName? p d = some name ∧ (p.node name).identifier? = some text ∧
    c.isProtected text = true

theorem Program.Protects.isDeclaration {p : Program} {c : Context} {d : NodeId}
    (protects : p.Protects c d) :
    (p.node d).isDeclarator = true ∨ Unused.isFunctionDeclaration (p.node d) = true := by
  obtain ⟨name, _, declares, -⟩ := protects
  rcases Unused.exists_of_declaredName? declares with ⟨f, shape, isDeclaration⟩ | ⟨init, shape⟩
  · rw [shape]
    exact .inr (decide_eq_true isDeclaration)
  · rw [shape]
    exact .inl rfl

variable {o p : Program} {may : NodeId → Prop} {c : Context} {w : Workspace} {id d t n : NodeId}
  {name : String}

namespace Program.Remnant

variable (remnant : o.Remnant may p) (isOld : o.tree.Allocated id)

include remnant isOld

theorem isIdentifier (holds : (p.node id).isIdentifier = true) :
    (o.node id).isIdentifier = true := by
  rwa [← Node.isIdentifier_tag, ← remnant.tag isOld, Node.isIdentifier_tag]

theorem isDeclarator (holds : (p.node id).isDeclarator = true) :
    (o.node id).isDeclarator = true := by
  rwa [← Node.isDeclarator_tag, ← remnant.tag isOld, Node.isDeclarator_tag]

theorem isFunctionDeclaration (holds : Unused.isFunctionDeclaration (p.node id) = true) :
    Unused.isFunctionDeclaration (o.node id) = true := by
  rwa [← Unused.isFunctionDeclaration_tag, ← remnant.tag isOld, Unused.isFunctionDeclaration_tag]

theorem protects (attached : p.isAttached id = true) (protects : o.Protects c id) :
    p.Protects c id := by
  obtain ⟨name, text, declares, spelled, isProtected⟩ := protects
  have before := (remnant.parent isOld attached).1
  have isIdentifier : (o.node name).isIdentifier = true := by
    rw [Node.isIdentifier, spelled, Option.isSome_some]
  have still : (p.node name).identifier? = some text := by
    rw [← Node.identifier?_tag, remnant.tag (Tree.allocated_of_isIdentifier isIdentifier),
      Node.identifier?_tag, spelled]
  refine ⟨name, text, ?_, still, isProtected⟩
  rw [Unused.declaredName?_eq_some_iff (by rw [Node.isIdentifier, still, Option.isSome_some])]
  rcases (Unused.declaredName?_eq_some_iff isIdentifier).mp declares with
    ⟨isFunction, held⟩ | ⟨isDeclarator, held⟩
  · refine .inl ⟨?_, remnant.names (by simp) before attached held⟩
    rwa [← Unused.isFunctionDeclaration_tag, remnant.tag isOld, Unused.isFunctionDeclaration_tag]
  · refine .inr ⟨?_, remnant.names (by simp) before attached held⟩
    rwa [← Node.isDeclarator_tag, remnant.tag isOld, Node.isDeclarator_tag]

end Program.Remnant

namespace SimplifyM.Remains

variable (here : Remains o may c w w)

include here

theorem not_protects_of_spelled (isOld : o.tree.Allocated t)
    (attached : w.program.isAttached t = true)
    (declares : Unused.declaredName? w.program t = some n)
    (spelled : (w.program.node n).identifier? = some name)
    (unprotected : c.isProtected name = false) : ¬o.Protects c t := by
  intro protects
  obtain ⟨other, text, same, isText, isProtected⟩ := here.remnant.protects isOld attached protects
  rw [declares, Option.some.injEq] at same
  subst same
  rw [spelled, Option.some.injEq] at isText
  rw [isText, isProtected] at unprotected
  cases unprotected

theorem not_protects_of_bindingOf? {binding : BindingId} (isOld : o.tree.Allocated t)
    (attached : w.program.isAttached t = true)
    (declares : Unused.declaredName? w.program t = some n)
    (belongs : w.program.bindingOf? n = some binding)
    (isDeclared : (w.program.binding binding).identifier = n)
    (unprotected : c.isProtected (w.program.binding binding).name = false) : ¬o.Protects c t :=
  here.not_protects_of_spelled isOld attached declares
    (here.steady.sound.spelled_of_bindingOf? belongs isDeclared) unprotected

end SimplifyM.Remains

/-! ### Unused declarations -/

namespace Unused

variable (declarations :
  ∀ {e}, (o.node e).isDeclarator = true ∨ isFunctionDeclaration (o.node e) = true →
    ¬o.Protects c e → may e)
  (calls : c.config.functionInlining = true →
    ∀ {e}, (∃ callee arguments, o.node e = .call callee arguments) → may e)

include calls in
theorem remaining_expandNamed (id : NodeId) (inlines : c.config.functionInlining = true)
    (here : Remains o may c w w) :
    Remaining o may c w (Call.expandNamed id) := by
  refine .program (.context ?_)
  split
  · exact .pure here trivial
  · refine .bindAlways route_remains (here.log _) fun _ v remains =>
      .anyChange route_remains remains.stay
        fun call _ u remains => .ifAttached remains.stay fun _ => ?_
    exact remains.stay.expandCall fun _ _ shape isOld =>
      calls inlines (Node.exists_call_of_tag (remains.remnant.tag isOld) shape)

include declarations in
theorem remaining_removeStep (id : NodeId) (here : Remains o may c w w) :
    Remaining o may c w (removeStep id) := by
  refine .program (.context ?_)
  split
  · exact .pure here trivial
  · rename_i name found
    obtain ⟨declares, unused⟩ := Option.filter_eq_some_iff.mp found
    obtain ⟨binding, belongs, unused⟩ := (Option.any_eq_true ..).mp unused
    simp only [Bool.and_eq_true, decide_eq_true_eq, Bool.not_eq_true', here.isProtected] at unused
    obtain ⟨⟨⟨isDeclared, -⟩, -⟩, unprotected⟩ := unused
    have isIdentifier : (w.program.node name).isIdentifier = true := by
      rw [Node.isIdentifier, here.steady.sound.spelled_of_bindingOf? belongs isDeclared,
        Option.isSome_some]
    have isHeld := (declaredName?_eq_some_iff isIdentifier).mp declares
    refine .snippet
      fun text =>
        .bindAlways route_remains (here.remove ?_ fun attached isOld => declarations ?_ ?_)
          fun _ v remains => .thenReturn route_remains (remains.stay.log _)
    · rcases exists_of_declaredName? declares with ⟨f, shape, -⟩ | ⟨init, shape⟩ <;> rw [shape] <;>
        rfl
    · exact isHeld.symm.imp (fun held => here.remnant.isDeclarator isOld held.1) fun held =>
        here.remnant.isFunctionDeclaration isOld held.1
    · exact here.not_protects_of_bindingOf? isOld attached declares belongs isDeclared unprotected

include declarations calls

theorem remaining_sweep (here : Remains o may c w w) : Remaining o may c w sweep := by
  refine .visit route_remains here fun id v remains _ _ _ => .program (.context ?_)
  have removes {u : Workspace} (remains : Remains o may c v u) (expanded : Bool) :
      Remaining o may c u (do
      let removed ← removeStep id
      return expanded || removed) :=
    .bindAlways route_remains (remaining_removeStep declarations id remains.stay) fun _ _ remains =>
      .pure remains.stay trivial
  dsimp only
  split
  · rename_i expands
    have inlines : c.config.functionInlining = true := by
      rw [← remains.config]
      exact (Bool.and_eq_true_iff.mp expands).2
    exact .bindAlways route_remains (remaining_expandNamed calls id inlines remains.stay)
      fun expanded _ remains =>
        removes remains expanded
  · exact .bindAlways route_remains (.pure remains.stay trivial)
      fun expanded _ remains => removes remains expanded

theorem remaining_sweepWithin (limit : Nat) (here : Remains o may c w w) :
    Remaining o may c w (sweepWithin limit) := by
  induction limit generalizing w with
  | zero => exact .pure here trivial
  | succ limit induction =>
    refine .bindAlways route_remains (remaining_sweep declarations calls here)
      fun changed v remains => ?_
    split
    · exact .thenReturn route_remains (.discard route_remains (induction remains.stay))
    · exact .pure remains.stay trivial

end Unused

/-! ### Constants and marshalled values -/

variable (identifiers : ∀ {e}, (o.node e).isIdentifier = true → may e)

include identifiers in
theorem ConstantUse.remaining (declarators : ∀ {e}, (o.node e).isDeclarator = true →
    ¬o.Protects c e → may e) (here : Remains o may c w w) :
    Remaining o may c w ConstantUse.run := by
  refine .visit route_remains here fun declarator v remains _ _ attached => .program (.context ?_)
  have here := remains.stay
  split
  · exact .pure here trivial
  · rename_i plan planned
    obtain ⟨binding, shape, belongs, -, isUses, -⟩ := ConstantUse.of_plan? planned
    obtain ⟨_, same, isDeclared, unprotected⟩ := ConstantUse.unprotected_of_plan? planned
    rw [belongs, Option.some.injEq] at same
    subst same
    rw [here.isProtected] at unprotected
    have spelled := here.steady.sound.spelled_of_bindingOf? belongs isDeclared
    have isTarget : (v.program.node declarator).isDeclarator = true := by rw [shape]; rfl
    refine .snippet fun _ => .snippet fun _ => .bindAlways route_remains (.forIn route_remains here
      fun use member u remains => ?_)
      fun _ u remains => .bindAlways route_remains (remains.stay.remove ?_ ?_)
        fun _ _ remains => .thenReturn route_remains (remains.stay.log _)
    · obtain ⟨isIdentifier, -⟩ := here.steady.sound.isUse_of_reference belongs (isUses ▸ member)
      have free := here.steady.sound.free_of_reference belongs (isUses ▸ member)
      refine remains.stay.exchange (Tree.makes_copy plan.init) (free.leads remains.leads)
        fun copy _ remains free allocated isNew => .yields route_remains ?_
      exact remains.stay.discardReplace free allocated isNew fun isOld =>
        identifiers (here.remnant.isIdentifier isOld isIdentifier)
    · exact remains.leads.isPattern_eq_false isTarget
    · exact fun _ isOld => declarators (here.remnant.isDeclarator isOld isTarget)
        (here.not_protects_of_spelled isOld attached
          (Unused.declaredName?_of_declarator shape spelled) spelled unprotected)

namespace Marshal

variable {function : String} {mode : MarshalMode} {group : Group} {start : List Group}
  {value : String}

theorem mem_of_mem_addTo (member : group ∈ addTo d name value start)
    (isDeclared : id ∈ group.declarators) :
    (id = d ∧ group.name = name) ∨
    ∃ other ∈ start, id ∈ other.declarators ∧ other.name = group.name := by
  induction start with
  | nil =>
    rw [addTo, List.mem_singleton] at member
    subst member
    exact .inl ⟨List.mem_singleton.mp isDeclared, rfl⟩
  | cons first rest induction =>
    rw [addTo] at member
    split at member
    · rename_i isName
      rcases List.mem_cons.mp member with rfl | isLater
      · rcases List.mem_append.mp isDeclared with isDeclared | isNew
        · exact .inr ⟨first, List.mem_cons_self .., isDeclared, rfl⟩
        · exact .inl ⟨List.mem_singleton.mp isNew, isName⟩
      · exact .inr ⟨group, List.mem_cons_of_mem _ isLater, isDeclared, rfl⟩
    · rcases List.mem_cons.mp member with rfl | isLater
      · exact .inr ⟨group, List.mem_cons_self .., isDeclared, rfl⟩
      · exact (induction isLater).imp_right fun ⟨other, isOther, rest⟩ =>
          ⟨other, List.mem_cons_of_mem _ isOther, rest⟩

theorem exists_of_mem_groups (member : group ∈ groups p function)
    (isDeclared : id ∈ group.declarators) :
    id ∈ p.nodes ∧ ∃ target init, p.node id = .variableDeclarator target init ∧
      (p.node target).identifier? = some group.name := by
  let Declares (found : List Group) : Prop := ∀ group ∈ found, ∀ id ∈ group.declarators,
    id ∈ p.nodes ∧ ∃ target init, p.node id = .variableDeclarator target init ∧
      (p.node target).identifier? = some group.name
  refine List.foldlRecOn (motive := Declares) p.nodes _ (b := []) nofun
    (fun found each id isNode => ?_) group member id isDeclared
  split
  · rename_i name value made
    intro group member other isDeclared
    rcases mem_of_mem_addTo member isDeclared with ⟨rfl, rfl⟩ | ⟨former, isFormer, isDeclared, same⟩
    · obtain ⟨target, init, _, _, _, shape, spelled, -⟩ := of_marshalled? made
      exact ⟨isNode, target, some init, shape, spelled⟩
    · rw [← same]
      exact each former isFormer other isDeclared
  · exact each

theorem unprotected_of_plan? (planned : group.plan? c mode = some value) :
    c.isProtected group.name = false := by
  obtain ⟨-, holds⟩ := Option.filter_eq_some_iff.mp planned
  simp only [Bool.and_eq_true, Bool.not_eq_true'] at holds
  exact holds.1

include identifiers

theorem remaining_unwrapGroup (each : ∀ declarator ∈ group.declarators,
      (w.program.node declarator).isDeclarator = true ∧
      (o.tree.Allocated declarator → may declarator))
    (here : Remains o may c w w) : Remaining o may c w (unwrapGroup mode group value) := by
  refine .bindAlways route_remains
    (.forIn route_remains here fun declarator member v remains => .program ?_)
    fun _ v remains => .program (.bindAlways route_remains (.forIn route_remains remains.stay
      fun use member u further => ?_) fun _ _ remains => remains.stay.log _)
  · obtain ⟨isDeclarator, isMay⟩ := each declarator member
    split
    · exact .yields route_remains
        (remains.stay.remove (remains.leads.isPattern_eq_false isDeclarator) fun _ => isMay)
    · exact .pure remains.stay ⟨rfl, trivial⟩
  · refine further.stay.exchange (makes_encoded mode value)
      ((free_of_mem_reads remains.remnant.steady member).leads further.leads)
      fun encoded _ later free allocated isNew => .yields route_remains ?_
    exact later.stay.discardReplace free allocated isNew fun isOld =>
      identifiers (remains.remnant.isIdentifier isOld (isIdentifier_of_mem_reads member))

theorem remaining (declarators : ∀ {e}, (o.node e).isDeclarator = true → ¬o.Protects c e → may e)
    (here : Remains o may c w w) : Remaining o may c w (Marshal.run function mode) := by
  refine .context (.program (.anyChange route_remains here fun group member v remains => ?_))
  split
  · exact .pure remains.stay trivial
  · rename_i value planned
    refine .thenReturn route_remains
      (remaining_unwrapGroup identifiers (fun declarator isDeclared => ?_) remains.stay)
    obtain ⟨isNode, target, init, shape, spelled⟩ := exists_of_mem_groups member isDeclared
    have isDeclarator : (w.program.node declarator).isDeclarator = true := by rw [shape]; rfl
    refine ⟨remains.leads.isDeclarator isDeclarator, fun isOld => ?_⟩
    refine declarators (here.remnant.isDeclarator isOld isDeclarator) ?_
    refine here.not_protects_of_spelled isOld (here.remnant.rooted.isAttached_of_mem_nodes isNode)
      (Unused.declaredName?_of_declarator shape spelled) spelled ?_
    rw [← here.isProtected]
    exact unprotected_of_plan? planned

end Marshal

/-! ### Classes -/

theorem ClassForm.remaining
    (functions : ∀ {e}, Unused.isFunctionDeclaration (o.node e) = true → ¬o.Protects c e → may e)
    (statements : ∀ {e}, (∃ expression, o.node e = .expressionStatement expression) → may e)
    (here : Remains o may c w w) : Remaining o may c w ClassForm.run := by
  refine .visit route_remains here fun function v remains _ _ attached => .program (.context ?_)
  have here := remains.stay
  split
  · exact .pure here trivial
  · rename_i plan planned
    have steady := here.steady
    obtain ⟨unprotected, target, _, _, fits⟩ :=
      (ClassForm.plan?_eq_some_iff steady.linked).mp planned
    rw [here.isProtected] at unprotected
    have shape := fits.shape
    have free : v.program.Free function := .of_isPlain steady (by rw [shape]; rfl)
    have building :=
      ClassForm.building_classOf (.start steady.linked steady.wellBound steady.nonempty)
        plan.function (fun param member => steady.isPattern_of_mem_params shape member)
        plan.name plan.methods
    refine .bind route_remains (here.buildPieces building) fun class_ u built ⟨isClass, made⟩ => ?_
    obtain ⟨allocated, isNew⟩ := made _ (List.mem_singleton_self _)
    rw [← isClass] at allocated isNew
    refine .bindAlways route_remains
      (.forIn route_remains built.stay fun method member u' remains =>
        .yields route_remains ?_) fun _ u' cleared => .bindAlways route_remains
          (cleared.stay.replace (free.leads (built.leads.trans cleared.leads))
            (cleared.leads.allocated allocated) isNew fun isOld => functions ?_ ?_)
          fun _ _ remains => .thenReturn route_remains (remains.stay.log _)
    · obtain ⟨_, -, defines⟩ := fits.exists_use member
      obtain ⟨_, statement⟩ := defines.exists_expression
      refine remains.stay.remove ?_ fun _ isOld =>
        statements (Node.exists_expressionStatement_of_tag (here.remnant.tag isOld) statement)
      have isStatement : v.program.tree.Allocated method.statement :=
        Tree.allocated_of_node_ne fun isEmpty => by
        rw [Program.node, isEmpty] at statement
        cases statement
      rw [← Node.isPattern_tag, Program.node, (built.leads.trans remains.leads).tag isStatement,
        Node.isPattern_tag, show v.program.tree.node method.statement = _ from statement]
      rfl
    · refine here.remnant.isFunctionDeclaration isOld ?_
      rw [shape]
      exact decide_eq_true fits.isDeclaration
    · exact here.not_protects_of_spelled isOld attached
        ((Unused.declaredName?_of_function shape fits.isDeclaration).trans fits.named)
        fits.spelled unprotected

/-! ### Dispatchers -/

namespace Decoder

variable {a : Alias} {primitive : Primitive} {reference : NodeId}

theorem remaining_redirect (a : Alias) (meaning : Option BindingId)
    (free : w.program.Free reference) (isMay : o.tree.Allocated reference → may reference)
    (here : Remains o may c w w) :
    Remaining o may c w (redirect a meaning reference) := by
  refine .program ?_
  split
  · refine here.exchange (Tree.makes_identifier a.target) free
      fun identifier _ remains free allocated isNew => ?_
    exact .thenReturn route_remains (remains.stay.discardReplace free allocated isNew isMay)
  · exact .pure here trivial

theorem remaining_aliasStep (isMay : may a.declarator)
    (uses : ∀ declared init binding,
      w.program.node a.declarator = .variableDeclarator declared (some init) →
      w.program.bindingOf? declared = some binding →
      ∀ reference ∈ (w.program.binding binding).references,
        o.tree.Allocated reference → may reference) (here : Remains o may c w w) :
    Remaining o may c w (aliasStep a) := by
  refine .program ?_
  split
  · rename_i declared init shape
    split
    · exact .pure here trivial
    · rename_i binding belongs
      refine .bindAlways route_remains
        (.anyChange route_remains here fun reference member v remains => ?_)
        fun redirected v remains => .bindAlways route_remains (.program ?_) fun _ _ remains =>
          .pure remains.stay trivial
      · have free := here.steady.sound.free_of_reference belongs member
        exact remaining_redirect a _ (free.leads remains.leads)
          (uses declared init binding shape belongs reference member) remains.stay
      · dsimp only
        split
        · refine .bindAlways route_remains (remains.stay.remove ?_ fun _ _ => isMay)
            fun _ _ remains =>
              .thenReturn route_remains (remains.stay.log _)
          exact remains.leads.isPattern_eq_false (by rw [shape]; rfl)
        · exact .pure remains.stay trivial
  · exact .pure here trivial

theorem remaining_callStep {call : NodeId} (free : w.program.Free call) (isMay : may call)
    (here : Remains o may c w w) : Remaining o may c w (callStep primitive call) := by
  refine .program ?_
  split
  · exact .pure here trivial
  · rename_i value result
    refine here.exchange (Tree.makes_encode value) free
      fun encoded _ remains free allocated isNew => ?_
    exact .thenReturn route_remains
      (remains.stay.replaceAndRecord free allocated isNew fun _ => isMay)

theorem exists_of_callsOneOf {names : List String} (calls : callsOneOf names p id = true) :
    ∃ callee arguments, p.node id = .call callee arguments := by
  cases shape : p.node id with
  | call callee arguments => exact ⟨callee, arguments, rfl⟩
  | _ =>
    rw [callsOneOf, shape] at calls
    cases calls

theorem remaining_calls {names : List String}
    (calls : ∀ e, callsOneOf names w.program e = true → may e) (here : Remains o may c w w) :
    Remaining o may c w (visit (callsOneOf names) (callStep primitive)) := by
  refine .visit route_remains here fun call v remains _ isCall _ => ?_
  have free : w.program.Free call := by
    obtain ⟨callee, arguments, shape⟩ := exists_of_callsOneOf isCall
    exact .of_isPlain here.steady (by rw [shape]; rfl)
  exact remaining_callStep (free.leads remains.leads) (calls call isCall) remains.stay

include identifiers in
theorem remaining
    (calls : ∀ e, callsOneOf (name :: (aliases w.program name).map (·.name)) w.program e = true →
      may e)
    (retires : ∀ a ∈ aliases w.program name, may a.declarator) (here : Remains o may c w w) :
    Remaining o may c w (Decoder.run name primitive) := by
  refine .program ?_
  dsimp only
  generalize aliases w.program name = found at calls retires ⊢
  -- The calls are looked for when the aliases have been noted, in the same program.
  refine .bind route_remains (.forIn_rest route_remains (fun _ v => v.program = w.program) here rfl
    fun a _ v _ remains same => .bind route_remains (remains.stay.logs _) fun _ _ remains further =>
      .pure remains.stay ⟨rfl, further.trans same⟩) fun _ v remains same =>
        .bindAlways route_remains
          (remaining_calls (fun e isCall => calls e (same ▸ isCall)) remains.stay)
          fun _ _ remains =>
            .bindAlways route_remains
              (.anyChange route_remains remains.stay fun a member _ remains =>
                .ifAttached remains.stay fun _ => ?_) fun _ _ remains => .pure remains.stay trivial
  refine remaining_aliasStep (retires a (List.mem_reverse.mp member)) ?_ remains.stay
  intro declared init binding _ belongs reference member isOld
  have isIdentifier := (remains.stay.steady.sound.isUse_of_reference belongs member).1
  exact identifiers (remains.remnant.isIdentifier isOld isIdentifier)

/-- An alias that nothing uses goes away, whatever its name. -/
theorem exists_of_aliasStep {declared init : NodeId} {binding : BindingId} (a : Alias) (c : Context)
    (steady : p.Steady) (attached : p.isAttached a.declarator = true)
    (shape : p.node a.declarator = .variableDeclarator declared (some init))
    (belongs : p.bindingOf? declared = some binding) (unread : (p.binding binding).references = [])
    (unwritten : (p.binding binding).mutations = []) :
    ∃ w, aliasStep a ⟨p, c⟩ = .ok true w ∧ w.program.isAttached a.declarator = false := by
  obtain ⟨_, means, -⟩ := steady.sound.exists_of_bindingOf? belongs
  have isIdentifier := steady.sound.isIdentifier_of_meaning? means
  have declares : Unused.declaredName? p a.declarator = some declared := by
    simp [Unused.declaredName?, shape, isIdentifier]
  have fades := Unused.fades_of_declaredName? steady attached declares belongs
  obtain ⟨after, done, taken⟩ := fades.removable.exists_taken steady
  have removed : ∃ w, removeStep a declared ⟨p, c⟩ = .ok true w ∧ w.program = after := by
    rw [removeStep, program_bind]
    simp only [belongs, Option.any_some, Binding.isReferenced, Binding.isConstant, unread,
      unwritten, List.isEmpty_nil, Bool.not_true, Bool.not_false, Bool.and_true, if_true]
    rw [bind_of_ok _ (remove_of_ok done)]
    exact ⟨_, rfl, rfl⟩
  obtain ⟨w, ran, isAfter⟩ := removed
  refine ⟨w, ?_, ?_⟩
  · rw [aliasStep, program_bind]
    simp only [shape, belongs, unread]
    rw [bind_of_ok _ (show anyChange [] _ ⟨p, c⟩ = .ok false ⟨p, c⟩ from rfl), bind_of_ok _ ran]
    rfl
  · rw [isAfter]
    exact taken.isAttached_eq_false (steady.remove done).1.sound.rooted

end Decoder

/-! ### Rules -/

namespace Rule

/-- Whether a rule takes declarations out of a program. -/
def removesDeclarations : Rule → Bool
  | .unusedDeclaration | .constInlining | .marshalUnwrap .. | .classReconstruction |
    .dispatcherResolution .. => true
  | _ => false

/--
The nodes that a rule takes out of a program, but for uses of names, where they declare no protected
names. -/
def Takes (p : Program) (c : Context) (e : NodeId) : Rule → Prop
  | .unusedDeclaration => (p.node e).isDeclarator = true ∨
    Unused.isFunctionDeclaration (p.node e) = true ∨
      c.config.functionInlining = true ∧ ∃ callee arguments, p.node e = .call callee arguments
  | .constInlining | .marshalUnwrap .. => (p.node e).isDeclarator = true
  | .classReconstruction =>
      Unused.isFunctionDeclaration (p.node e) = true ∨
      ∃ expression, p.node e = .expressionStatement expression
  | .dispatcherResolution name _ =>
    Decoder.callsOneOf (name :: (Decoder.aliases p name).map (·.name)) p e = true
  | _ => False

/-- The declarators that a rule takes out of a program whatever names they declare. -/
def Retires (p : Program) (e : NodeId) : Rule → Prop
  | .dispatcherResolution name _ => ∃ a ∈ Decoder.aliases p name, a.declarator = e
  | _ => False

theorem remaining (rule : Rule) (removes : rule.removesDeclarations = true)
    (identifiers : ∀ {e}, (o.node e).isIdentifier = true → may e)
    (takes : ∀ {e}, rule.Takes o c e → ¬o.Protects c e → may e)
    (retires : ∀ {e}, rule.Retires o e → may e) (steady : o.Steady) :
    Remaining o may c ⟨o, c⟩ rule.run := by
  have here : Remains o may c ⟨o, c⟩ ⟨o, c⟩ := .start steady
  have unnamed {e : NodeId} (notDeclarator : (o.node e).isDeclarator = false)
      (notFunction : Unused.isFunctionDeclaration (o.node e) = false) : ¬o.Protects c e :=
      fun protects => by
    rcases protects.isDeclaration with isDeclaration | isDeclaration <;> simp_all
  cases rule with
  | unusedDeclaration =>
    refine .program (Unused.remaining_sweepWithin (fun isDeclaration => takes ?_)
      (fun inlines e isCall => ?_) _ here)
    · exact isDeclaration.imp_right .inl
    · refine takes (.inr (.inr ⟨inlines, isCall⟩)) ?_
      obtain ⟨callee, arguments, shape⟩ := isCall
      exact unnamed (by rw [shape]; rfl) (by rw [shape]; rfl)
  | constInlining => exact ConstantUse.remaining identifiers takes here
  | marshalUnwrap function mode => exact Marshal.remaining identifiers takes here
  | classReconstruction =>
    refine ClassForm.remaining (fun isFunction => takes (.inl isFunction))
      (fun isStatement => ?_) here
    refine takes (.inr isStatement) ?_
    obtain ⟨expression, shape⟩ := isStatement
    exact unnamed (by rw [shape]; rfl) (by rw [shape]; rfl)
  | dispatcherResolution name primitive =>
    refine Decoder.remaining identifiers (fun e isCall => takes isCall ?_)
      (fun a member => retires ⟨a, member, rfl⟩) here
    obtain ⟨callee, arguments, shape⟩ := Decoder.exists_of_callsOneOf isCall
    exact unnamed (by rw [shape]; rfl) (by rw [shape]; rfl)
  | _ => cases removes

end Rule

/-! ### Instances -/

namespace Decoder

/-- The tree of `var d2 = dec;`. -/
def copying : Tree :=
  ⟨#[⟨.identifier "d2", some ⟨2⟩⟩, ⟨.identifier "dec", some ⟨2⟩⟩,
    ⟨.variableDeclarator ⟨0⟩ (some ⟨1⟩), some ⟨3⟩⟩, ⟨.variableDeclaration .var [⟨2⟩], some ⟨4⟩⟩,
    ⟨.program [⟨3⟩], none⟩]⟩

def bothRegistered : Config :=
  { Config.default with dispatchers := [⟨"dec", fun _ => none⟩, ⟨"d2", fun _ => none⟩] }

theorem exists_copying :
    ∃ p, Program.ofTree copying ⟨4⟩ = .ok p ∧ p.Reached ∧ p.Steady ∧ p.tree = copying ∧
      p.root = ⟨4⟩ ∧ aliases p "dec" = [⟨⟨2⟩, "d2", "dec"⟩] ∧
        ∃ binding, p.bindingOf? ⟨0⟩ = some binding ∧
          (p.binding binding).references = [] ∧ (p.binding binding).mutations = [] := by
  have linked : copying.Linked := Tree.linked_of_checks (by decide)
  have isTop : copying.IsTop ⟨4⟩ := ⟨by decide, by decide⟩
  obtain ⟨scopes, made, steady⟩ := Program.exists_steady copying ⟨4⟩ linked isTop
    (Tree.wellBound_of_bindsWell (by decide)) rfl
  let p : Program := ⟨copying, ⟨4⟩, scopes, false⟩
  have steady : p.Steady := steady
  have means : (copying.lexicon ⟨4⟩).meaning? ⟨0⟩ = some ⟨⟨4⟩, "d2", .var, ⟨2⟩, ⟨0⟩⟩ := by decide
  have alone : ∀ mention ∈ copying.descendants ⟨4⟩, (copying.lexicon ⟨4⟩).meaning? mention =
      some ⟨⟨4⟩, "d2", .var, ⟨2⟩, ⟨0⟩⟩ → mention = ⟨0⟩ := by decide
  obtain ⟨binding, belongs, stands⟩ := steady.sound.exists_of_meaning? means
  have apart {mention : NodeId} :
      mention ∉ (p.binding binding).references ∧ mention ∉ (p.binding binding).mutations := by
    rw [← not_or]
    intro member
    obtain ⟨mentions, different⟩ := steady.sound.meaning?_of_mem means belongs member
    refine different (alone mention ?_ mentions)
    exact (linked.mem_descendants_iff isTop.allocated).mpr
      (Program.isWithin_root_of_meaning? steady.sound.rooted mentions).1
  have unread : (p.binding binding).references = [] :=
    List.eq_nil_iff_forall_not_mem.mpr fun _ => apart.1
  have unwritten : (p.binding binding).mutations = [] :=
    List.eq_nil_iff_forall_not_mem.mpr fun _ => apart.2
  refine ⟨p, made, .made linked isTop made, steady, rfl, rfl, ?_, binding, belongs,
    unread, unwritten⟩
  have constant : p.isConstantVariable binding = true :=
    (steady.sound.isConstantVariable_eq stands unwritten).trans rfl
  have isAlias : Copy.alias? p "dec" ⟨⟨2⟩, ⟨0⟩, "dec"⟩ = some ⟨⟨2⟩, "d2", "dec"⟩ := by
    simp [Copy.alias?, belongs, constant, Program.binding, stands.identifier, stands.name]
  have isOther : Copy.alias? p "d2" ⟨⟨2⟩, ⟨0⟩, "dec"⟩ = none := by simp [Copy.alias?]
  have copies : p.nodes.filterMap (copy? p) = [⟨⟨2⟩, ⟨0⟩, "dec"⟩] := rfl
  rw [aliases, copies]
  simp [search, isAlias, isOther, addAlias]

theorem exists_retired {p : Program} (primitive : Primitive) (c : Context) (steady : p.Steady)
    (isTree : p.tree = copying) (isRoot : p.root = ⟨4⟩)
    (isAlias : aliases p "dec" = [⟨⟨2⟩, "d2", "dec"⟩]) {binding : BindingId}
    (belongs : p.bindingOf? ⟨0⟩ = some binding) (unread : (p.binding binding).references = [])
    (unwritten : (p.binding binding).mutations = []) :
    ∃ w, run "dec" primitive ⟨p, c⟩ = .ok true w ∧ w.program.isAttached ⟨2⟩ = false := by
  have shape : p.node ⟨2⟩ = .variableDeclarator ⟨0⟩ (some ⟨1⟩) := by rw [Program.node, isTree]; rfl
  have attached : p.isAttached ⟨2⟩ = true := by
    rw [Program.isAttached, isTree, isRoot]
    decide
  -- No call is there to be resolved.
  have called (c : Context) : visit (callsOneOf ["dec", "d2"]) (callStep primitive) ⟨p, c⟩ =
      .ok false ⟨p, c⟩ := by
    have none : p.nodes.filter (callsOneOf ["dec", "d2"] p) = [] := by
      obtain ⟨tree, root, scopes, stale⟩ := p
      cases isTree
      cases isRoot
      rfl
    rw [visit, nodesWhere_bind, none]
    rfl
  let noted : Context := { c with
    journal := c.journal.record ⟨.dispatcherIdentified, "d2" ++ " → " ++ "dec", some ⟨2⟩, none⟩ }
  obtain ⟨w, ran, gone⟩ := exists_of_aliasStep ⟨⟨2⟩, "d2", "dec"⟩ noted steady attached shape
    belongs unread unwritten
  have once :
      anyChange [⟨⟨2⟩, "d2", "dec"⟩] (fun a => ifAttached a.declarator (aliasStep a)) ⟨p, noted⟩ =
        .ok true w := by
    have first : ifAttached ⟨2⟩ (aliasStep ⟨⟨2⟩, "d2", "dec"⟩) ⟨p, noted⟩ = .ok true w := by
      rw [ifAttached, program_bind, if_pos attached, ran]
    rw [anyChange_cons, bind_of_ok _ first]
    rfl
  refine ⟨w, ?_, gone⟩
  rw [run, program_bind]
  dsimp only
  rw [isAlias]
  exact (bind_of_ok _ rfl).trans ((bind_of_ok _ (called noted)).trans (bind_of_ok _ once))

end Decoder

/-! ### Runs of rules -/

/-- A declaration of a protected name stays and declares that name, unless it goes away in something
around it that declares no protected name or in the declarator of an alias. -/
theorem Program.Reached.protected_stays (reached : p.Reached) (verified : p.verify = .ok ())
    (wellBound : p.tree.WellBound) (rule : Rule) (removes : rule.removesDeclarations = true)
    (c : Context) (attached : p.isAttached d = true) (protects : p.Protects c d) :
    (rule.leaves c p).isAttached d = true ∧ (rule.leaves c p).Protects c d ∨
      ∃ e, p.tree.isWithin d e = true ∧ (rule.leaves c p).isAttached e = false ∧
        (rule.Takes p c e ∧ ¬p.Protects c e ∨ rule.Retires p e) := by
  have steady : p.Steady := ⟨reached.sound verified, wellBound⟩
  let may (e : NodeId) : Prop :=
    (p.node e).isIdentifier = true ∨ rule.Takes p c e ∧ ¬p.Protects c e ∨ rule.Retires p e
  have remnant : p.Remnant may (rule.leaves c p) := by
    have remaining : Remaining p may c ⟨p, c⟩ rule.run :=
      rule.remaining removes .inl (fun takes unprotected =>
        .inr (.inl ⟨takes, unprotected⟩)) (fun retires => .inr (.inr retires)) steady
    rw [Rule.leaves]
    cases ran : rule.run ⟨p, c⟩ with
    | ok answer w => exact (remaining.of_ok ran).1.remnant
    | error e w => exact (remaining.of_error ran).remnant
  have allocated := steady.sound.rooted.allocated_of_isAttached attached
  cases left : (rule.leaves c p).isAttached d with
  | true => exact .inl ⟨rfl, remnant.protects allocated left protects⟩
  | false =>
    refine .inr ?_
    have ⟨_, _, declares, _⟩ := protects
    have shape := Unused.exists_of_declaredName? declares
    rcases remnant.gone attached left with isOther | ⟨outer, isOther | reason, within, gone⟩
    · rcases shape with ⟨f, shape, -⟩ | ⟨init, shape⟩ <;> rw [shape] at isOther <;> cases isOther
    · rw [← steady.linked.eq_of_isWithin_identifier isOther within] at isOther
      rcases shape with ⟨f, shape, -⟩ | ⟨init, shape⟩ <;> rw [shape] at isOther <;> cases isOther
    · exact ⟨outer, within, gone, reason⟩

theorem Decoder.of_isWithin_copying {e : NodeId} (within : copying.isWithin ⟨2⟩ e = true) :
    e = ⟨2⟩ ∨ e = ⟨3⟩ ∨ e = ⟨4⟩ := by
  have above : copying.ancestors ⟨2⟩ = [⟨3⟩, ⟨4⟩] := by decide
  rcases Tree.isWithin_iff.mp within with same | member
  · exact .inl same.symm
  · rw [above] at member
    exact .inr (by simpa using member)

theorem Decoder.protects_copying {p : Program} (isTree : p.tree = copying) :
    p.Protects (bothRegistered.workspace p).context ⟨2⟩ := by
  refine ⟨⟨0⟩, "d2", ?_, ?_, rfl⟩
  · simp only [Unused.declaredName?, Program.node, isTree]
    rfl
  · rw [Program.node, isTree]
    rfl

/-- A dispatcher stays that is declared as the alias of another one and not used. -/
theorem Program.Reached.exists_protected_stays : ∃ p, Program.ofTree Decoder.copying ⟨4⟩ = .ok p ∧
    p.isAttached ⟨2⟩ = true ∧ p.Protects (Decoder.bothRegistered.workspace p).context ⟨2⟩ ∧
      (Rule.leaves .unusedDeclaration (Decoder.bothRegistered.workspace p).context p).isAttached
        ⟨2⟩ = true := by
  obtain ⟨p, made, reached, steady, isTree, isRoot, -⟩ := Decoder.exists_copying
  have attached : p.isAttached ⟨2⟩ = true := by
    rw [Program.isAttached, isTree, isRoot]
    decide
  have protects := Decoder.protects_copying isTree
  refine ⟨p, made, attached, protects, ?_⟩
  rcases protected_stays reached steady.sound.verify steady.wellBound .unusedDeclaration rfl _
    attached protects with stays | ⟨e, within, -, ⟨takes, unprotected⟩ | retires⟩
  · exact stays.1
  · -- What is around the declaration is no declaration and no call.
    rw [isTree] at within
    simp only [Rule.Takes, Program.node, isTree] at takes
    rcases Decoder.of_isWithin_copying within with rfl | rfl | rfl
    · exact absurd protects unprotected
    · simp [Decoder.copying, Tree.node, Node.isDeclarator, Unused.isFunctionDeclaration] at takes
    · simp [Decoder.copying, Tree.node, Node.isDeclarator, Unused.isFunctionDeclaration] at takes
  · cases retires

/-- The same declaration goes away, by itself, when the aliases of the other dispatcher do. -/
theorem Rule.exists_protected_retired :
    ∃ p w, Program.ofTree Decoder.copying ⟨4⟩ = .ok p ∧ p.isAttached ⟨2⟩ = true ∧
      p.Protects (Decoder.bothRegistered.workspace p).context ⟨2⟩ ∧
      (∀ e, e ≠ ⟨2⟩ → p.tree.isWithin ⟨2⟩ e = true → Unused.declaredName? p e = none) ∧
      Rule.dispatcherResolution "dec" (fun _ => none) ∈ Decoder.bothRegistered.recoverRules ∧
      Rule.run (.dispatcherResolution "dec" fun _ => none) (Decoder.bothRegistered.workspace p) =
        .ok true w ∧
      w.program.isAttached ⟨2⟩ = false := by
  obtain ⟨p, made, reached, steady, isTree, isRoot, isAlias, binding, belongs, unread, unwritten⟩ :=
    Decoder.exists_copying
  obtain ⟨w, ran, gone⟩ := Decoder.exists_retired (fun _ => none)
    (Decoder.bothRegistered.workspace p).context steady isTree isRoot isAlias belongs
    unread unwritten
  refine ⟨p, w, made, ?_, Decoder.protects_copying isTree, fun e different within => ?_,
    ?_, ran, gone⟩
  · rw [Program.isAttached, isTree, isRoot]
    decide
  · rw [isTree] at within
    simp only [Unused.declaredName?, Program.node, isTree]
    rcases Decoder.of_isWithin_copying within with rfl | rfl | rfl
    · exact absurd rfl different
    · rfl
    · rfl
  · simp [Config.recoverRules, Decoder.bothRegistered]

end Unravel
