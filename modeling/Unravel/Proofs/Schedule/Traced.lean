import Unravel.Proofs.Program.Meaning
import Unravel.Proofs.Simplify.Shown
import Unravel.Proofs.Tree.Term
import Unravel.Schedule.Engine

/-!
Runs of the engine as runs of its rules: a schedule only runs rules and reports on them
(`Config.tracing_process`). What changes the source text is a rule that answers yes, and the journal
has a change exactly if one of these has recorded what it has changed
(`Config.hasChanges_iff_of_process`).
-/

namespace Unravel

open SimplifyM Workspace

/-! ### Traces -/

structure RuleRun where
  rule : Rule
  before : Workspace
  answer : Bool
  after : Workspace

/-- A run has changed the program in a way that it records. -/
def RuleRun.Shows (r : RuleRun) :
    Prop := r.answer = true ∧ r.rule.Shows r.before.program r.after.program

/--
Runs of rules lead from one workspace to another one. In between nothing is recorded of changes. -/
inductive Trace (rules : List Rule) : Workspace → List RuleRun → Workspace → Prop
  | stay (w : Workspace) : Trace rules w [] w
  | log {w v : Workspace} {runs : List RuleRun} {e : Event}
      (notTransformation : e.kind.isTransformation = false)
      (rest : Trace rules (w.logged e) runs v) : Trace rules w runs v
  | run {w mid v : Workspace} {runs : List RuleRun} {rule : Rule} {answer : Bool}
      (isRule : rule ∈ rules) (ran : rule.run w = .ok answer mid) (rest : Trace rules mid runs v) :
      Trace rules w (⟨rule, w, answer, mid⟩ :: runs) v

/-- The rules of all phases. -/
def Config.rules (c : Config) : List Rule :=
  c.restructureRules ++ c.recoverRules ++ c.simplifyRules ++ c.inliningRules ++ c.normalizeRules

variable {rules : List Rule} {w mid v : Workspace} {runs later : List RuleRun}

theorem Workspace.Rests.source_eq (rests : w.Rests v) (rooted : w.program.Rooted) :
    v.program.source = w.program.source := by
  have root : v.program.root = w.program.root := by rw [rests.program]
  have same : v.program.tree.term w.program.root = w.program.tree.term w.program.root := by
    refine rooted.linked.term_congr rests.grows.linked rooted.isTop.allocated fun {id} within => ?_
    have allocated := rooted.linked.allocated_of_isWithin within rooted.isTop.allocated
    exact ⟨Nat.lt_of_lt_of_le allocated rests.grows.size, rests.grows.node allocated⟩
  rw [Program.source, Program.source, Tree.source, Tree.source, root, same]

namespace Trace

theorem append (first : Trace rules w runs mid) (second : Trace rules mid later v) :
    Trace rules w (runs ++ later) v := by
  induction first with
  | stay => exact second
  | log notTransformation _ induction => exact .log notTransformation (induction second)
  | run isRule ran _ induction => exact .run isRule ran (induction second)

theorem reports_iff (trace : Trace rules w runs v) (steady : w.program.Steady) :
    w.Extends v ∧ (w.Reports v ↔ ∃ r ∈ runs, r.Shows) := by
  induction trace with
  | stay w =>
    have mutes : w.Mutes w := .of_eq rfl
    exact ⟨mutes.toExtends, iff_of_false mutes.not_reports (by simp)⟩
  | @log w _ _ _ notTransformation _ induction =>
    have mutes := mutes_logged (w := w) notTransformation
    obtain ⟨further, reports⟩ := induction steady
    exact ⟨mutes.toExtends.trans further, (mutes.reports_iff further).trans reports⟩
  | @run w mid v runs rule answer _ ran _ induction =>
    have result := rule.steadily steady w.context
    rw [ran] at result
    obtain ⟨added, shows⟩ := rule.reports_iff steady ran
    obtain ⟨further, reports⟩ := induction result.1
    refine ⟨added.trans further, ?_⟩
    rw [added.reports_iff further, shows, reports, List.exists_mem_cons_iff]
    rfl

/-- Without a rule that answers yes the program stays as it is. -/
theorem rests (trace : Trace rules w runs v) (rooted : w.program.Rooted)
    (no : ∀ r ∈ runs, r.answer = false) :
    w.Rests v := by
  induction trace with
  | stay w => exact .refl rooted.linked
  | @log w _ _ e _ _ induction =>
    have same : w.Rests (w.logged e) := .of_program rooted.linked rfl rfl rfl
    exact same.trans (induction rooted no)
  | @run w mid v runs rule answer _ ran _ induction =>
    obtain ⟨isNo, others⟩ := List.forall_mem_cons.mp no
    obtain rfl : answer = false := isNo
    have rests := rule.honest w mid rooted ran
    exact rests.trans (induction (rests.rooted rooted) others)

end Trace

/-! ### Schedules of rules -/

def Traced (rules : List Rule) (w v : Workspace) : Prop := ∃ runs, Trace rules w runs v

theorem Traced.refl (w : Workspace) : Traced rules w w := ⟨[], .stay w⟩

theorem route_traced (rules : List Rule) : Route (Traced rules) fun _ _ => True where
  stay _ := .refl _
  trans := fun ⟨_, first⟩ ⟨_, second⟩ => ⟨_, first.append second⟩
  fails _ _ := trivial

/-- Wherever an action starts, it succeeds by runs of rules only. -/
def Tracing {α : Type} (rules : List Rule) (action : SimplifyM α) : Prop :=
  ∀ w, Through (Traced rules) (fun _ _ => True) w action always

namespace Tracing

variable {α β : Type} {action : SimplifyM α} {next : α → SimplifyM β} {rule : Rule}

theorem pure (result : α) : Tracing rules (pure result : SimplifyM α) :=
  fun w => .pure (.refl w) trivial

theorem bind (first : Tracing rules action) (rest : ∀ a, Tracing rules (next a)) :
    Tracing rules (action >>= next) :=
  fun w => .bindAlways (route_traced rules) (first w) fun a v _ => rest a v

theorem discard (first : Tracing rules action) : Tracing rules (Functor.discard action) :=
  bind first fun _ => pure _

theorem program {next : Program → SimplifyM β} (rest : ∀ p, Tracing rules (next p)) :
    Tracing rules (SimplifyM.program >>= next) := fun w => .program (rest w.program w)

theorem log {e : Event} (notTransformation : e.kind.isTransformation = false) :
    Tracing rules (SimplifyM.log e) := by
  refine fun w => .of_success fun _ v ran => ?_
  obtain ⟨-, rfl⟩ := EStateM.Result.ok.inj ran
  exact ⟨⟨[], .log notTransformation (.stay _)⟩, trivial⟩

theorem ofRule (isRule : rule ∈ rules) : Tracing rules rule.run :=
  fun _ => .of_success fun _ _ ran => ⟨⟨[_], .run isRule ran (.stay _)⟩, trivial⟩

theorem foldlM {ι : Type} {items : List ι} {step : Bool → ι → SimplifyM Bool}
    (each : ∀ item ∈ items, ∀ changed, Tracing rules (step changed item)) (start : Bool) :
    Tracing rules (items.foldlM step start) :=
  fun w => .foldlM (route_traced rules) (.refl w) trivial
    fun item member changed v _ _ => each item member changed v

end Tracing

namespace Schedule

variable {s : Schedule SimplifyM} {passes : List (Pass SimplifyM)} {verify : Bool}

def AreRules (rules : List Rule) (passes : List (Pass SimplifyM)) : Prop :=
  ∀ pass ∈ passes, ∃ rule ∈ rules, pass = rule.pass

theorem tracing_verifyAfter (name : String) : Tracing rules (verifyAfter name) := by
  refine .program fun p => ?_
  split
  · exact .pure _
  · exact .bind (.log rfl) fun _ _ => .throw trivial

theorem tracing_runPass {rule : Rule} (isRule : rule ∈ rules) :
    Tracing rules (runPass verify rule.pass) := by
  refine .bind (.pure _) fun ready => ?_
  split
  · exact .pure _
  · refine .bind (.ofRule isRule) fun changed => ?_
    split
    · exact .pure _
    · refine .bind (.log rfl) fun _ => ?_
      split
      · exact .bind (tracing_verifyAfter _) fun _ => .pure _
      · exact .pure _

theorem tracing_runOnce (areRules : AreRules rules passes) :
    Tracing rules (runOnce verify passes) := by
  have each (moment : Pass SimplifyM → SimplifyM Unit)
      (idle : ∀ rule : Rule, moment rule.pass = pure ()) :
      Tracing rules
        (forIn passes PUnit.unit
          fun pass _ => do moment pass; return ForInStep.yield PUnit.unit) := by
    refine fun w => .forIn (route_traced rules) (.refl w) fun pass member v _ => ?_
    obtain ⟨rule, -, rfl⟩ := areRules pass member
    rw [idle]
    exact .yields (route_traced rules) (.pure (.refl v) trivial)
  refine .bind (each (·.start) fun _ => rfl)
    fun _ => .bind (.foldlM (fun pass member changed => ?_) _) fun changed =>
      .bind (each (·.finish) fun _ => rfl) fun _ => .pure _
  obtain ⟨rule, isRule, rfl⟩ := areRules pass member
  exact .bind (tracing_runPass isRule) fun _ => .pure _

theorem tracing_repeatWhile {step : SimplifyM Bool} (tracing : Tracing rules step) (limit : Nat) :
    Tracing rules (repeatWhile step limit) := by
  induction limit with
  | zero => exact .pure _
  | succ limit induction =>
    refine .bind tracing fun changed => ?_
    split
    · exact .bind (.discard induction) fun _ => .pure _
    · exact .pure _

theorem tracing_phaseStep (normalizes : AreRules rules s.normalize)
    (areRules : AreRules rules passes) :
    Tracing rules (s.phaseStep passes) := by
  refine .bind (tracing_runOnce areRules) fun changed => ?_
  split
  · exact .bind (.discard (tracing_repeatWhile (tracing_runOnce normalizes) _)) fun _ => .pure _
  · exact .pure _

theorem tracing_iteration (normalizes : AreRules rules s.normalize)
    (areRules : ∀ phase ∈ s.phases, AreRules rules phase) (first : Bool) :
    Tracing rules (s.iteration first) := by
  refine .bind (.foldlM (fun phase isPhase changed => .bind ?_ fun _ => .pure _) _)
    fun changed => ?_
  · rw [runPhase]
    split
    · exact .pure _
    · exact tracing_repeatWhile (tracing_phaseStep normalizes (areRules phase isPhase)) _
  · split
    · exact tracing_repeatWhile (tracing_runOnce normalizes) _
    · exact .pure _

theorem tracing_iterate (normalizes : AreRules rules s.normalize)
    (areRules : ∀ phase ∈ s.phases, AreRules rules phase) (limit done stable : Nat) :
    Tracing rules (s.iterate limit done stable) := by
  induction limit generalizing done stable with
  | zero => exact .pure _
  | succ limit induction =>
    refine .bind (tracing_iteration normalizes areRules _) fun changed => ?_
    split
    · exact induction _ _
    · split
      · exact .pure _
      · exact induction _ _

end Schedule

theorem Context.journal_foldl_protect (names : List String) (c : Context) :
    (names.foldl protect c).journal = c.journal := by
  induction names generalizing c with
  | nil => rfl
  | cons name rest induction => exact induction (c.protect name)

namespace Config

theorem tracing_run (c : Config) : Tracing c.rules c.schedule.run := by
  have areRules {some : List Rule} (among : ∀ rule ∈ some, rule ∈ c.rules) :
      Schedule.AreRules c.rules (some.map Rule.pass) := by
    intro pass member
    obtain ⟨rule, isRule, rfl⟩ := List.mem_map.mp member
    exact ⟨rule, among rule isRule, rfl⟩
  refine Schedule.tracing_iterate (areRules fun rule member => ?_) (fun phase isPhase => ?_) _ _ _
  · simp [Config.rules, member]
  · simp only [Schedule.phases, schedule, List.mem_cons, List.not_mem_nil, or_false] at isPhase
    rcases isPhase with rfl | rfl | rfl | rfl <;> refine areRules fun rule member => ?_ <;>
      simp [Config.rules, member]

theorem journal_workspace (c : Config) (p : Program) : (c.workspace p).context.journal = .empty :=
  Context.journal_foldl_protect _ _

/-- The journal of a run has a change if one has been recorded since its start. -/
theorem hasChanges_iff (c : Config) (p : Program) :
    v.context.journal.hasChanges = true ↔ (c.workspace p).Reports v := by
  have whole : v.context.journal.toList = (c.workspace p).context.journal.toList ++
      v.context.journal.toList := by
    rw [journal_workspace, Journal.toList_empty, List.nil_append]
  simp only [Journal.hasChanges, Journal.transformations, Bool.not_eq_true',
    List.isEmpty_eq_false_iff_exists_mem, List.mem_filter]
  constructor
  · rintro ⟨e, member, isTransformation⟩
    exact ⟨_, whole, e, member, isTransformation⟩
  · rintro ⟨events, same, e, member, isTransformation⟩
    exact ⟨e, by rw [same]; exact List.mem_append_right _ member, isTransformation⟩

end Config

namespace Escapes

/-- The tree of a program that consists of the string `"\x41"`. -/
def respelled : Tree :=
  ⟨#[⟨.literal (.string "A" (some "\"\\x41\"")), some ⟨1⟩⟩, ⟨.expressionStatement ⟨0⟩, some ⟨2⟩⟩,
    ⟨.program [⟨1⟩], none⟩]⟩

def respell : SimplifyM Bool := do
  let literal ← SimplifyM.build (Tree.stringLiteral "A")
  discard (SimplifyM.replace ⟨0⟩ literal)
  return true

def changesText (p : Program) : Bool :=
  match respell ⟨p, default⟩ with
  | .ok answer w => answer && w.program.source != p.source
  | .error .. => false

theorem plan?_respelled {p : Program} (isTree : p.tree = respelled) :
    plan? (p.node ⟨0⟩) = some ("A", false) := by
  rw [Program.node, isTree,
    show respelled.node ⟨0⟩ = .literal (.string "A" (some "\"\\x41\"")) from rfl]
  simp [plan?, decoded?, Text.hasUnicodeEscape]

theorem step_respelled {p : Program} {c : Context} (isTree : p.tree = respelled) :
    step ⟨0⟩ ⟨p, c⟩ = respell ⟨p, c⟩ := by
  rw [step, program_bind]
  dsimp only
  rw [plan?_respelled isTree]
  rfl

theorem exists_respelled :
    ∃ p w, Program.ofTree respelled ⟨2⟩ = .ok p ∧ p.tree = respelled ∧ p.root = ⟨2⟩ ∧
      p.Reached ∧ p.Steady ∧ run ⟨p, default⟩ = .ok true w ∧ w.program.source ≠ p.source := by
  have linked : respelled.Linked := Tree.linked_of_checks (by decide)
  have isTop : respelled.IsTop ⟨2⟩ := ⟨by decide, by decide⟩
  obtain ⟨scopes, made, steady⟩ := Program.exists_steady respelled ⟨2⟩ linked isTop
    (Tree.wellBound_of_bindsWell (by decide)) rfl
  have changes : (Program.ofTree respelled ⟨2⟩).toOption.any changesText = true := by decide +kernel
  rw [made, Except.toOption, Option.any_some, changesText] at changes
  split at changes
  · rename_i answer w ran
    rw [Bool.and_eq_true, bne_iff_ne] at changes
    obtain ⟨rfl, different⟩ := changes
    have whole : run ⟨⟨respelled, ⟨2⟩, scopes, false⟩, default⟩ =
        anyChange [⟨0⟩] step ⟨⟨respelled, ⟨2⟩, scopes, false⟩, default⟩ := rfl
    refine ⟨_, w, made, rfl, rfl, .made linked isTop made, steady, ?_, different⟩
    rw [whole, anyChange_cons, bind_of_ok _ ((step_respelled rfl).trans ran)]
    rfl
  · cases changes

end Escapes

/-- Simplifications of a sound program record a change exactly if they answer yes and show the
change, and runs of the engine that change the source text contain one that answers yes; the journal
has a change if one of them shows it. -/
theorem Program.Reached.changes_shown {p : Program} (reached : p.Reached)
    (verified : p.verify = .ok ()) (wellBound : p.tree.WellBound) :
    (∀ (rule : Rule) (c : Context) (answer : Bool) (w : Workspace), rule.run ⟨p, c⟩ = .ok answer w →
      (Reports ⟨p, c⟩ w ↔ answer = true ∧ rule.Shows p w.program)) ∧
    ∀ (config : Config) (n : Nat) (w : Workspace), config.process p = .ok n w →
      ∃ runs, Trace config.rules (config.workspace p) runs w ∧
        (w.context.journal.hasChanges = true ↔ ∃ r ∈ runs, r.Shows) ∧
        (w.program.source ≠ p.source → ∃ r ∈ runs, r.answer = true) := by
  have steady : p.Steady := ⟨reached.sound verified, wellBound⟩
  refine ⟨fun rule c answer w ran => (rule.reports_iff steady ran).2, fun config n w ran => ?_⟩
  obtain ⟨⟨runs, trace⟩, -⟩ := (config.tracing_run (config.workspace p)).of_ok ran
  refine ⟨runs, trace, (config.hasChanges_iff p).trans (trace.reports_iff steady).2,
    fun different => ?_⟩
  by_contra no
  have rests := trace.rests steady.sound.rooted fun r member =>
    Bool.eq_false_iff.mpr fun isYes => no ⟨r, member, isYes⟩
  exact different (rests.source_eq steady.sound.rooted)

theorem Program.Reached.exists_changes_shown :
    ∃ p w, Program.ofTree Escapes.respelled ⟨2⟩ = .ok p ∧ p.verify = .ok () ∧
      p.tree.WellBound ∧ Rule.run .unicodeDecode ⟨p, default⟩ = .ok true w ∧
        (Reports ⟨p, default⟩ w ↔ true = true ∧ Rule.Shows p w.program .unicodeDecode) := by
  obtain ⟨p, w, made, -, -, reached, steady, ran, -⟩ := Escapes.exists_respelled
  exact ⟨p, w, made, steady.sound.verify, steady.wellBound, ran,
    (changes_shown reached steady.sound.verify steady.wellBound).1 .unicodeDecode
      default true w ran⟩

/-- A string that is spelled anew is no change that is recorded. -/
theorem Rule.exists_not_reports : ∃ p w, Program.ofTree Escapes.respelled ⟨2⟩ = .ok p ∧
    run .unicodeDecode ⟨p, default⟩ = .ok true w ∧ w.program.source ≠ p.source ∧
      ¬Reports ⟨p, default⟩ w := by
  obtain ⟨p, w, made, isTree, isRoot, -, steady, ran, different⟩ := Escapes.exists_respelled
  refine ⟨p, w, made, ran, different, fun reports => ?_⟩
  obtain ⟨-, id, member, value, planned⟩ := (Escapes.reports_iff steady ran).2.mp reports
  have nodes : p.nodes = [⟨2⟩, ⟨1⟩, ⟨0⟩] := by
    rw [Program.nodes, isTree, isRoot]
    rfl
  rw [nodes] at member
  simp only [List.mem_cons, List.not_mem_nil, or_false] at member
  rcases member with rfl | rfl | rfl
  · rw [Program.node, isTree] at planned
    cases planned
  · rw [Program.node, isTree] at planned
    cases planned
  · rw [Escapes.plan?_respelled isTree] at planned
    cases planned

end Unravel
