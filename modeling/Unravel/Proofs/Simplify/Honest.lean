import Unravel.Proofs.Program.Change
import Unravel.Proofs.Program.Reached
import Unravel.Proofs.Simplify.Run
import Unravel.Proofs.Tree.Assembly
import Unravel.Proofs.Tree.Term
import Unravel.Simplify.Rule

/-!
Rules answer whether they have changed anything, and a rule that answers no has not
(`SimplifyM.Honest`): at most new nodes lie about in the store that nothing in the program holds
(`Workspace.Rests`).
-/

namespace Unravel

structure Workspace.Rests (w after : Workspace) : Prop where
  program : after.program = { w.program with tree := after.program.tree }
  grows : w.program.tree.Grows after.program.tree
  config : after.context.config = w.context.config
  protectedNames : after.context.protectedNames = w.context.protectedNames

namespace Workspace.Rests

variable {w mid after : Workspace}

theorem of_program (linked : w.program.tree.Linked) (same : after.program = w.program)
    (config : after.context.config = w.context.config)
    (protectedNames : after.context.protectedNames = w.context.protectedNames) : w.Rests after where
  program := by rw [same]
  grows := by
    rw [same]
    exact .refl linked
  config := config
  protectedNames := protectedNames

theorem refl (linked : w.program.tree.Linked) : w.Rests w := of_program linked rfl rfl rfl

theorem trans (first : w.Rests mid) (second : mid.Rests after) : w.Rests after where
  program := by
    rw [second.program, first.program]
  grows := first.grows.trans second.grows
  config := second.config.trans first.config
  protectedNames := second.protectedNames.trans first.protectedNames

theorem rooted (rests : w.Rests after) (rooted : w.program.Rooted) : after.program.Rooted := by
  rw [rests.program]
  exact rooted.grow rests.grows

/-- The nodes of the program are the same and stand where they stood. -/
theorem unchanged (rests : w.Rests after) (rooted : w.program.Rooted) (id : NodeId) :
    after.program.isAttached id = w.program.isAttached id ∧ (w.program.isAttached id = true →
      after.program.node id = w.program.node id ∧
        after.program.tree.parent? id = w.program.tree.parent? id) := by
  have linked := rooted.linked
  have root : after.program.root = w.program.root := by rw [rests.program]
  have unchanged := rests.grows.unchanged linked rooted.isTop
  have afterRooted := rests.rooted rooted
  constructor
  · rw [Program.isAttached_eq linked rooted.isTop.top,
      Program.isAttached_eq afterRooted.linked afterRooted.isTop.top, root]
    exact unchanged.isWithin_root linked rests.grows.linked rooted.isTop.top
  · intro attached
    rw [Program.isAttached_eq linked rooted.isTop.top] at attached
    exact ⟨unchanged.node attached, unchanged.parent? attached⟩

end Workspace.Rests

namespace SimplifyM

variable {α : Type} {w after : Workspace}

/-- Whatever an action answers, the program rests. -/
def Idle (action : SimplifyM α) : Prop :=
  ∀ w result after, w.program.Rooted → action w = .ok result after → w.Rests after

def Honest (action : SimplifyM Bool) : Prop :=
  ∀ w after, w.program.Rooted → action w = .ok false after → w.Rests after

namespace Idle

theorem of_eq {action : SimplifyM α} (result : Workspace → α)
    (same : ∀ w, action w = .ok (result w) w) :
    Idle action := by
  intro w _ after rooted ran
  obtain ⟨-, rfl⟩ := EStateM.Result.ok.inj ((same w).symm.trans ran)
  exact .refl rooted.linked

theorem pure (result : α) : Idle (pure result : SimplifyM α) := of_eq (fun _ => result) fun _ => rfl

theorem program : Idle SimplifyM.program := of_eq (·.program) fun _ => rfl

theorem context : Idle SimplifyM.context := of_eq (·.context) fun _ => rfl

theorem snippet (id : NodeId) :
    Idle (SimplifyM.snippet id) := of_eq (·.program.snippet id) fun _ => rfl

theorem nodesWhere (test : Program → NodeId → Bool) : Idle (SimplifyM.nodesWhere test) :=
  of_eq (fun w => w.program.nodes.filter (test w.program)) fun _ => rfl

theorem record (kind : EventKind) (node : NodeId) (message : String) :
    Idle (SimplifyM.record kind node message) := by
  rintro w _ _ rooted ⟨⟩
  exact .of_program rooted.linked rfl rfl rfl

theorem register (definitions : List Proxy.Definition) : Idle (Proxy.register definitions) := by
  rintro w _ _ rooted ⟨⟩
  exact .of_program rooted.linked rfl rfl rfl

theorem encode (value : Value) : Idle (SimplifyM.build value.encode) := by
  rintro w _ _ rooted ⟨⟩
  have assembly := (Tree.workshop_assembly w.program.tree).encode value [] _
    (.start rooted.linked rooted.nonempty)
  exact ⟨rfl, assembly.grows, rfl, rfl⟩

theorem bind {β : Type} {action : SimplifyM α} {next : α → SimplifyM β} (first : Idle action)
    (rest : ∀ a, Idle (next a)) : Idle (action >>= next) := by
  intro w result after rooted ran
  obtain ⟨a, mid, stepped, ran⟩ := exists_of_bind_ok ran
  have rests := first w a mid rooted stepped
  exact rests.trans (rest a mid result after (rests.rooted rooted) ran)

theorem forIn {items : List α} {body : α → PUnit → SimplifyM (ForInStep PUnit)}
    (each : ∀ item, Idle (body item .unit)) : Idle (forIn items PUnit.unit body) := by
  induction items with
  | nil => exact pure _
  | cons head rest induction =>
    rw [List.forIn_cons]
    refine bind (each head) fun step => ?_
    split
    · exact pure _
    · exact induction

end Idle

namespace Honest

theorem affirms {action : SimplifyM Bool} (affirms : Affirms action) : Honest action :=
  fun w after _ ran => absurd ran (affirms w after)

theorem idle {action : SimplifyM Bool} (idle : Idle action) : Honest action :=
  fun w after rooted ran => idle w false after rooted ran

theorem no : Honest (pure false) := idle (.pure false)

theorem bind {action : SimplifyM α} {next : α → SimplifyM Bool} (first : Idle action)
    (rest : ∀ a, Honest (next a)) : Honest (action >>= next) := by
  intro w after rooted ran
  obtain ⟨a, mid, stepped, ran⟩ := exists_of_bind_ok ran
  have rests := first w a mid rooted stepped
  exact rests.trans (rest a mid after (rests.rooted rooted) ran)

theorem program {next : Program → SimplifyM Bool} (rest : ∀ p, Honest (next p)) :
    Honest (SimplifyM.program >>= next) := bind .program rest

theorem context {next : Context → SimplifyM Bool} (rest : ∀ c, Honest (next c)) :
    Honest (SimplifyM.context >>= next) := bind .context rest

theorem cases {action : SimplifyM Bool} {next : Bool → SimplifyM Bool} (first : Honest action)
    (no : Honest (next false)) (yes : Affirms (next true)) : Honest (action >>= next) := by
  intro w after rooted ran
  obtain ⟨answer, mid, stepped, ran⟩ := exists_of_bind_ok ran
  cases answer with
  | false =>
    have rests := first w mid rooted stepped
    exact rests.trans (no mid after (rests.rooted rooted) ran)
  | true => exact absurd ran (yes mid after)

/-- Two actions of which the second is made whatever the first answers. -/
theorem or {first second : SimplifyM Bool} (honest : Honest first) (further : Honest second) :
    Honest (do let x ← first; let y ← second; return x || y) := by
  refine honest.cases ?_ .thenYes
  simpa only [Bool.false_or, bind_pure] using further

theorem anyChange {items : List α} {step : α → SimplifyM Bool} (each : ∀ item, Honest (step item)) :
    Honest (SimplifyM.anyChange items step) := by
  induction items with
  | nil => exact no
  | cons head rest induction =>
    rw [anyChange_cons]
    exact .or (each head) induction

theorem ifAttached {id : NodeId} {step : SimplifyM Bool} (honest : Honest step) :
    Honest (SimplifyM.ifAttached id step) := by
  refine program fun p => ?_
  split
  · exact honest
  · exact no

theorem visit {test : Program → NodeId → Bool} {step : NodeId → SimplifyM Bool}
    (each : ∀ id, Honest (step id)) :
    Honest (SimplifyM.visit test step) :=
  bind (.nodesWhere test) fun _ => anyChange fun id => ifAttached (each id)

end Honest

end SimplifyM

open SimplifyM

/-! ### The rules -/

namespace Alias

theorem honest_collapse (links : Links) (site : NodeId) : Honest (collapse links site) := by
  refine .program fun p => ?_
  split
  · exact .no
  · exact .affirms (.bind fun _ => .bind fun _ => .thenYes)

theorem honest_collapseAt (sites : List NodeId) : Honest (collapseAt sites) :=
  .program fun _ => .anyChange fun site => .ifAttached (honest_collapse _ site)

end Alias

theorem ArrayRead.honest : Honest ArrayRead.run := by
  refine .visit fun declarator => .program fun p => ?_
  split
  · split
    · exact .no
    · exact .context fun c => .anyChange fun _ => .ifAttached (.affirms (.bind fun _ => .thenYes))
  · exact .no

theorem Branch.honest : Honest Branch.run := by
  refine .visit fun id => .program fun p => ?_
  split
  · exact .no
  · refine .affirms (.bind fun _ => ?_)
    split
    · exact .bind fun _ => .bind fun _ => .thenYes
    · exact .bind fun _ => .thenYes

theorem SimplifyM.honest_expandCall (function expression call : NodeId) (label : String) :
    Honest (expandCall function expression call label) := by
  refine .program fun p => ?_
  split
  · split
    · exact .affirms (.bind fun _ => .thenYes)
    · exact .no
  · exact .no

namespace Call

theorem honest_expandNamed (function : NodeId) : Honest (expandNamed function) := by
  refine .program fun p => .context fun c => ?_
  split
  · exact .no
  · exact .bind (.record _ _ _)
      fun _ => .anyChange fun call => .ifAttached (honest_expandCall _ _ _ _)

theorem honest_immediate : Honest runImmediate := by
  refine .program fun p => .anyChange fun (call, function) => .ifAttached (.program fun q => ?_)
  split
  · exact .no
  · exact honest_expandCall _ _ _ _

end Call

theorem ClassForm.honest : Honest ClassForm.run := by
  refine .visit fun function => .program fun p => .context fun c => ?_
  split
  · exact .no
  · exact .affirms (.bind fun _ => .bind fun _ => .bind fun _ => .thenYes)

theorem ConstantUse.honest : Honest ConstantUse.run := by
  refine .visit fun declarator => .program fun p => .context fun c => ?_
  split
  · exact .no
  · exact .affirms (.bind fun _ => .bind fun _ => .bind fun _ => .bind fun _ => .thenYes)

namespace Decoder

variable (a : Alias)

theorem honest_redirect (meaning : Option BindingId) (reference : NodeId) :
    Honest (redirect a meaning reference) := by
  refine .program fun p => ?_
  split
  · exact .affirms (.bind fun _ => .thenYes)
  · exact .no

theorem honest_removeStep (declared : NodeId) : Honest (removeStep a declared) := by
  refine .program fun p => ?_
  dsimp only
  split
  · exact .affirms (.bind fun _ => .thenYes)
  · exact .no

theorem honest_aliasStep : Honest (aliasStep a) := by
  refine .program fun p => ?_
  split
  · split
    · exact .no
    · exact .or (.anyChange fun _ => honest_redirect a _ _) (honest_removeStep a _)
  · exact .no

theorem honest (name : String) (primitive : Primitive) : Honest (Decoder.run name primitive) := by
  refine .program
    fun p => .bind (.forIn fun a => .bind (.record _ _ _) fun _ => .pure _) fun _ => ?_
  refine .or (.visit fun call => .program fun q => ?_)
    (.anyChange fun a => .ifAttached (honest_aliasStep a))
  split
  · exact .no
  · exact .affirms (.bind fun _ => .thenYes)

end Decoder

theorem DottedCall.honest : Honest DottedCall.run := by
  refine .visit fun call => .program fun p => ?_
  split
  · exact .no
  · exact .affirms (.bind fun _ => .thenYes)

theorem Escapes.honest : Honest Escapes.run := by
  refine .bind (.nodesWhere _) fun _ => .anyChange fun id => .program fun p => ?_
  split
  · exact .no
  · refine .affirms (.bind fun _ => ?_)
    split <;> exact .thenYes

theorem FlatLoop.honest : Honest FlatLoop.run := by
  refine .visit fun loop => .program fun p => ?_
  split
  · exact .no
  · exact .affirms (.bind fun _ => .bind fun _ => .thenYes)

theorem Folding.honest : Honest Folding.run := by
  refine .visit fun id => .program fun p => ?_
  split
  · exact .no
  · refine .bind (.encode _) fun folded => .program fun q => ?_
    split
    · exact .no
    · exact .affirms .thenYes

theorem Marshal.honest (function : String) (mode : MarshalMode) :
    Honest (Marshal.run function mode) := by
  refine .context fun c => .program fun p => .anyChange fun group => ?_
  split
  · exact .no
  · exact .affirms .thenYes

theorem ObjectLiteral.honest : Honest ObjectLiteral.run := by
  refine .visit fun declarator => .program fun p => ?_
  split
  · exact .no
  · exact .affirms (.bind fun _ => .bind fun _ => .bind fun _ => .bind fun _ => .thenYes)

theorem Proxy.honest : Honest Proxy.run := by
  refine .program
    fun p => .bind (.register _) fun _ => .or (.visit fun call => ?_) (.anyChange fun d => ?_)
  · refine .program fun q => .context fun c => ?_
    split
    · exact .no
    · exact .affirms (.bind fun _ => .thenYes)
  · refine .program fun q => .context fun c => ?_
    split
    · exact .affirms (.bind fun _ => .bind fun _ => .thenYes)
    · exact .no

namespace TableEntry

theorem honest_reads : Honest runReads := by
  refine .visit fun member => .program fun p => .context fun c => ?_
  dsimp only
  split
  · exact .no
  · exact .affirms (.bind fun _ => .thenYes)

theorem honest_calls : Honest runCalls := by
  refine .visit fun call => .program fun p => .context fun c => ?_
  split
  · exact .no
  · exact .bind (.snippet _) fun _ => honest_expandCall _ _ _ _

end TableEntry

namespace Unused

theorem honest_removeStep (id : NodeId) : Honest (removeStep id) := by
  refine .program fun p => .context fun c => ?_
  split
  · exact .no
  · exact .affirms (.bind fun _ => .bind fun _ => .thenYes)

theorem honest_step (id : NodeId) : Honest (step id) := by
  refine .program fun p => .context fun c => ?_
  dsimp only
  split
  · exact .or (Call.honest_expandNamed id) (honest_removeStep id)
  · exact .or .no (honest_removeStep id)

theorem honest_sweepWithin (limit : Nat) : Honest (sweepWithin limit) := by
  cases limit with
  | zero => exact .no
  | succ limit => exact .cases (.visit honest_step) .no .thenYes

end Unused

namespace Rule

theorem honest (rule : Rule) : Honest rule.run := by
  cases rule with
  | switchUnflattening => exact FlatLoop.honest
  | computedCall => exact DottedCall.honest
  | dispatcherResolution name primitive => exact Decoder.honest name primitive
  | marshalUnwrap function mode => exact Marshal.honest function mode
  | unicodeDecode => exact Escapes.honest
  | branchPruning => exact Branch.honest
  | initializerChain => exact .program fun _ => Alias.honest_collapseAt _
  | aliasCollapse => exact .bind (.nodesWhere _) fun _ => Alias.honest_collapseAt _
  | functionInlining => exact .visit Call.honest_expandNamed
  | iifeInlining => exact Call.honest_immediate
  | objectMethodInlining => exact TableEntry.honest_calls
  | memberPropertyInlining => exact TableEntry.honest_reads
  | binaryProxy => exact Proxy.honest
  | constInlining => exact ConstantUse.honest
  | arrayIndexInlining => exact ArrayRead.honest
  | constantFolding => exact Folding.honest
  | unusedDeclaration => exact .program fun _ => Unused.honest_sweepWithin _
  | objectReconstruction => exact ObjectLiteral.honest
  | classReconstruction => exact ClassForm.honest

/-- A rule that reports no change leaves the table and the nodes of the program as they were, and of
the context all but the events and the known operators. -/
theorem untouched_of_run (rule : Rule) {p : Program} (reached : p.Reached) {c : Context}
    {w : Workspace} (ran : rule.run ⟨p, c⟩ = .ok false w) :
    w.program = { p with tree := w.program.tree } ∧
      (∀ id, w.program.isAttached id = p.isAttached id ∧ (p.isAttached id = true →
        w.program.node id = p.node id ∧ w.program.tree.parent? id = p.tree.parent? id)) ∧
      w.context.config = c.config ∧ w.context.protectedNames = c.protectedNames := by
  obtain ⟨known, keeps⟩ := reached.keeps
  have rests := rule.honest ⟨p, c⟩ w keeps.toRooted ran
  exact ⟨rests.program, rests.unchanged keeps.toRooted, rests.config, rests.protectedNames⟩

/-- The tree of `-1;`. -/
def foldedAlready : Tree :=
  ⟨#[⟨.literal (.number 1.0), some ⟨1⟩⟩, ⟨.unary .minus ⟨0⟩, some ⟨2⟩⟩,
    ⟨.expressionStatement ⟨1⟩, some ⟨3⟩⟩, ⟨.program [⟨2⟩], none⟩]⟩

/--
Folding `-1` builds an expression for the value, finds that it is the same one and leaves it aside.
-/
theorem exists_untouched_of_run : ∃ p w, Program.ofTree foldedAlready ⟨3⟩ = .ok p ∧
    run .constantFolding ⟨p, default⟩ = .ok false w ∧ p.tree.size < w.program.tree.size ∧
      w.program = { p with tree := w.program.tree } ∧
      (∀ id, w.program.isAttached id = p.isAttached id ∧ (p.isAttached id = true →
        w.program.node id = p.node id ∧ w.program.tree.parent? id = p.tree.parent? id)) ∧
      w.context.config = Context.config default ∧
      w.context.protectedNames = Context.protectedNames default := by
  have linked : foldedAlready.Linked := Tree.linked_of_checks (by decide)
  have isTop : foldedAlready.IsTop ⟨3⟩ := ⟨by decide, by decide⟩
  obtain ⟨scopes, made, -⟩ := Program.exists_ofTree linked isTop rfl
  set p : Program := ⟨foldedAlready, ⟨3⟩, scopes, false⟩ with isProgram
  let value : Value := .number (-1.0)
  have planned : Folding.plan? p ⟨1⟩ = some value := rfl
  have same : (value.encode p.tree).2.agrees (value.encode p.tree).1 ⟨1⟩ = true :=
    Tree.agrees_of_term_eq rfl
  have stepped : ifAttached ⟨1⟩ (Folding.step ⟨1⟩) ⟨p, default⟩ =
      .ok false ⟨{ p with tree := (value.encode p.tree).2 }, default⟩ := by
    rw [ifAttached, program_bind, if_pos (show p.isAttached ⟨1⟩ = true from rfl), Folding.step,
      program_bind, planned]
    dsimp only
    rw [build_bind, program_bind, if_pos same]
    rfl
  have candidates : p.nodes.filter (fun id => Folding.isCandidate (p.node id)) = [⟨1⟩] := rfl
  have ran : run .constantFolding ⟨p, default⟩ =
      .ok false ⟨{ p with tree := (value.encode p.tree).2 }, default⟩ := by
    rw [run, Folding.run, visit, nodesWhere_bind, candidates, anyChange_cons, bind_of_ok _ stepped]
    rfl
  have larger : foldedAlready.size < (value.encode foldedAlready).2.size := by decide
  exact ⟨_, _, made, ran, larger, untouched_of_run .constantFolding (.made linked isTop made) ran⟩

end Rule

end Unravel
