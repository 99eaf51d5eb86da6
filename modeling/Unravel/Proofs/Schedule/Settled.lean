import Unravel.Proofs.Simplify.Run
import Unravel.Schedule.Basic
import Mathlib.Data.List.Infix

/-!
What a schedule leaves when it stops before its limit: a program that none of its passes changes
(`Schedule.settled_after_run`). No pass of a phase changes it, for the last iteration changed
nothing; and no pass in between does, for normalization has followed the last change.
-/

namespace Unravel

open SimplifyM

/-! ### Passes -/

namespace SimplifyM

variable {α β : Type} {w after : Workspace}

def SparesProgram (action : SimplifyM α) : Prop :=
  ∀ w result after, action w = .ok result after → after.program = w.program

namespace SparesProgram

theorem pure (result : α) : SparesProgram (pure result : SimplifyM α) := by
  intro w _ after ran
  obtain ⟨-, rfl⟩ := EStateM.Result.ok.inj ran
  rfl

theorem bind {action : SimplifyM α} {next : α → SimplifyM β} (first : SparesProgram action)
    (rest : ∀ a, SparesProgram (next a)) : SparesProgram (action >>= next) := by
  intro w result after ran
  obtain ⟨a, mid, stepped, ran⟩ := exists_of_bind_ok ran
  exact (rest a mid result after ran).trans (first w a mid stepped)

theorem forIn {items : List α} {body : α → PUnit → SimplifyM (ForInStep PUnit)}
    (each : ∀ item ∈ items, SparesProgram (body item .unit)) :
    SparesProgram (forIn items PUnit.unit body) := by
  induction items with
  | nil => exact pure _
  | cons head rest induction =>
    rw [List.forall_mem_cons] at each
    rw [List.forIn_cons]
    refine bind each.1 fun step => ?_
    split
    · exact pure _
    · exact induction each.2

end SparesProgram

end SimplifyM

namespace Pass

/-- In every context a pass says of a program that it changes nothing, and does not. -/
def Quiet (pass : Pass SimplifyM) (p : Program) :
    Prop := ∀ c, ∃ c', pass.run ⟨p, c⟩ = .ok false ⟨p, c'⟩

structure IsPlain (pass : Pass SimplifyM) : Prop where
  ready : ∀ w, ∃ c, pass.isReady w = .ok true ⟨w.program, c⟩
  start : ∀ w, ∃ c, pass.start w = .ok () ⟨w.program, c⟩
  run : ∃ f : Program → Bool × Program, (∀ p c, ∃ c', pass.run ⟨p, c⟩ = .ok (f p).1 ⟨(f p).2, c'⟩) ∧
    ∀ p, (f p).1 = false → (f p).2 = p
  finish : ∀ w, ∃ c, pass.finish w = .ok () ⟨w.program, c⟩

namespace IsPlain

variable {pass : Pass SimplifyM} {w after : Workspace}

theorem quiet_of_run (plain : pass.IsPlain) (ran : pass.run w = .ok false after) :
    after.program = w.program ∧ pass.Quiet w.program := by
  obtain ⟨f, runs, honest⟩ := plain.run
  obtain ⟨c, same⟩ := runs w.program w.context
  obtain ⟨no, rfl⟩ := EStateM.Result.ok.inj (ran.symm.trans same)
  refine ⟨honest _ no.symm, fun c => ?_⟩
  obtain ⟨c', ran⟩ := runs w.program c
  rw [← no, honest _ no.symm] at ran
  exact ⟨c', ran⟩

theorem sparesProgram_start (plain : pass.IsPlain) : SparesProgram pass.start := by
  intro w _ after ran
  obtain ⟨c, same⟩ := plain.start w
  obtain ⟨-, rfl⟩ := EStateM.Result.ok.inj (ran.symm.trans same)
  rfl

theorem sparesProgram_finish (plain : pass.IsPlain) : SparesProgram pass.finish := by
  intro w _ after ran
  obtain ⟨c, same⟩ := plain.finish w
  obtain ⟨-, rfl⟩ := EStateM.Result.ok.inj (ran.symm.trans same)
  rfl

end IsPlain

end Pass

namespace Schedule

variable {s : Schedule SimplifyM} {w mid after : Workspace} {changed first : Bool}
  {step : SimplifyM Bool} {good : Workspace → Prop} {p : Program} {limit : Nat}

theorem of_anyChange {ι : Type} {items : List ι} (step : ι → SimplifyM Bool)
    {Q : ι → Program → Prop}
    (each : ∀ item ∈ items, ∀ w after, step item w = .ok false after →
      after.program = w.program ∧ Q item w.program)
    (ran : anyChange items step w = .ok false after) :
    after.program = w.program ∧ ∀ item ∈ items, Q item w.program := by
  induction items generalizing w with
  | nil =>
    obtain ⟨-, rfl⟩ := EStateM.Result.ok.inj ran
    exact ⟨rfl, nofun⟩
  | cons head rest induction =>
    rw [List.forall_mem_cons] at each
    rw [anyChange_cons] at ran
    obtain ⟨first, mid, others, stepped, ran, none⟩ := exists_of_or ran
    obtain ⟨rfl, rfl⟩ := Bool.or_eq_false_iff.mp none.symm
    obtain ⟨same, holds⟩ := each.1 _ _ stepped
    obtain ⟨still, others⟩ := induction each.2 ran
    rw [same] at still others
    exact ⟨still, List.forall_mem_cons.mpr ⟨holds, others⟩⟩

/-- No pass of a list changes a program. -/
def Quiet (passes : List (Pass SimplifyM)) (p : Program) : Prop := ∀ pass ∈ passes, pass.Quiet p

theorem quiet_of_runPass {verify : Bool} {pass : Pass SimplifyM} (plain : pass.IsPlain)
    (ran : runPass verify pass w = .ok false after) :
    after.program = w.program ∧ pass.Quiet w.program := by
  obtain ⟨ready, mid, isReady, ran⟩ := exists_of_bind_ok ran
  obtain ⟨c, same⟩ := plain.ready w
  obtain ⟨rfl, rfl⟩ := EStateM.Result.ok.inj (isReady.symm.trans same)
  obtain ⟨answer, last, answered, ran⟩ := exists_of_bind_ok ran
  cases answer with
  | false =>
    obtain ⟨-, rfl⟩ := EStateM.Result.ok.inj ran
    exact plain.quiet_of_run (w := ⟨w.program, c⟩) answered
  | true =>
    refine absurd ran (Affirms.bind (fun _ => ?_) _ _)
    split
    · exact .thenYes
    · exact .yes

theorem quiet_of_runOnce {verify : Bool} {passes : List (Pass SimplifyM)}
    (plain : ∀ pass ∈ passes, pass.IsPlain) (ran : runOnce verify passes w = .ok false after) :
    after.program = w.program ∧ Quiet passes w.program := by
  obtain ⟨_, started, isStarted, ran⟩ := exists_of_bind_ok ran
  obtain ⟨changed, finished, visited, ran⟩ := exists_of_bind_ok ran
  obtain ⟨_, last, isFinished, ran⟩ := exists_of_bind_ok ran
  obtain ⟨rfl, rfl⟩ := EStateM.Result.ok.inj ran
  have before : started.program = w.program := by
    refine SparesProgram.forIn (fun pass member => ?_) _ _ _ isStarted
    exact .bind (plain pass member).sparesProgram_start fun _ => .pure _
  have afterwards : last.program = finished.program := by
    refine SparesProgram.forIn (fun pass member => ?_) _ _ _ isFinished
    exact .bind (plain pass member).sparesProgram_finish fun _ => .pure _
  obtain ⟨between, quiet⟩ := of_anyChange (runPass verify)
    (fun pass member _ _ passRan => quiet_of_runPass (plain pass member) passRan) visited
  rw [before] at between quiet
  exact ⟨afterwards.trans between, quiet⟩

/-! ### Loops -/

/-- A loop is not cut off: each step that changes something is followed by another one within the
limit. The steps are made where something holds. -/
def Ends (step : SimplifyM Bool) (good : Workspace → Prop) : Nat → Workspace → Prop
  | 0, _ => False
  | limit + 1, w => good w ∧ ∀ after, step w = .ok true after → Ends step good limit after

theorem step_of_repeatWhile (positive : 0 < limit)
    (ran : repeatWhile step limit w = .ok false after) :
    step w = .ok false after := by
  cases limit with
  | zero => exact absurd positive (Nat.lt_irrefl 0)
  | succ limit =>
    obtain ⟨changed, mid, stepped, ran⟩ := exists_of_bind_ok ran
    cases changed with
    | false =>
      obtain ⟨-, rfl⟩ := EStateM.Result.ok.inj ran
      exact stepped
    | true => exact absurd ran (Affirms.thenYes _ _)

/-- A loop that is not cut off has made a last step that changed nothing. If it reports a change
there was a step before that did. -/
theorem exists_of_ends (reached : Program → Prop) (ends : Ends step good limit w)
    (unchanged : ∀ w after, step w = .ok false after → after.program = w.program)
    (reaches : ∀ w after, good w → step w = .ok true after → reached after.program)
    (ran : repeatWhile step limit w = .ok changed after) :
    (∃ mid, mid.program = after.program ∧ step mid = .ok false after) ∧
      (changed = true → reached after.program) := by
  induction limit generalizing w changed with
  | zero => exact ends.elim
  | succ limit induction =>
    obtain ⟨stepChanged, mid, stepped, ran⟩ := exists_of_bind_ok ran
    cases stepChanged with
    | false =>
      obtain ⟨rfl, rfl⟩ := EStateM.Result.ok.inj ran
      exact ⟨⟨w, (unchanged w mid stepped).symm, stepped⟩, nofun⟩
    | true =>
      obtain ⟨_, last, repeated, ran⟩ := exists_of_bind_ok ran
      obtain ⟨-, rfl⟩ := EStateM.Result.ok.inj ran
      obtain ⟨further, repeated⟩ := exists_of_discard repeated
      have endsFurther := ends.2 mid stepped
      obtain ⟨lastStep, isReached⟩ := induction endsFurther repeated
      refine ⟨lastStep, fun _ => ?_⟩
      cases further with
      | true => exact isReached rfl
      | false =>
        have positive : 0 < limit := by
          cases limit with
          | zero => exact endsFurther.elim
          | succ limit => exact Nat.succ_pos limit
        rw [unchanged mid last (step_of_repeatWhile positive repeated)]
        exact reaches w mid ends.1 stepped

def NormalizeEnds (s : Schedule SimplifyM) (w : Workspace) : Prop :=
  s.normalize ≠ [] → Ends (runOnce s.verify s.normalize) (fun _ => True) s.limits.phaseIterations w

def PhaseEnds (s : Schedule SimplifyM) (phase : List (Pass SimplifyM)) (w : Workspace) : Prop :=
  phase ≠ [] → Ends (s.phaseStep phase)
    (fun w => ∀ mid, runOnce s.verify phase w = .ok true mid → s.NormalizeEnds mid)
    s.limits.phaseIterations w

def PhasesEnd (s : Schedule SimplifyM) : List (List (Pass SimplifyM)) → Workspace → Prop
  | [], _ => True
  | phase :: rest, w => s.PhaseEnds phase w ∧
      ∀ changed after, s.runPhase phase w = .ok changed after → s.PhasesEnd rest after

/-- No loop of an iteration is cut off. -/
def IterationEnds (s : Schedule SimplifyM) (first : Bool) (w : Workspace) : Prop :=
  s.PhasesEnd s.phases w ∧
  ∀ after, first = true → anyChange s.phases s.runPhase w = .ok false after →
    s.NormalizeEnds after

/-! ### Phases and iterations -/

/-- All passes of a schedule. -/
def passes (s : Schedule SimplifyM) : List (Pass SimplifyM) := s.phases.flatten ++ s.normalize

section Normalized

variable (plain : ∀ pass ∈ s.normalize, pass.IsPlain)

include plain

theorem quiet_of_runNormalize (ends : s.NormalizeEnds w) (there : s.normalize ≠ [])
    (ran : s.runNormalize w = .ok changed after) : Quiet s.normalize after.program := by
  obtain ⟨⟨mid, same, stepped⟩, -⟩ := exists_of_ends (fun _ => True) (ends there)
    (fun _ _ stepped => (quiet_of_runOnce plain stepped).1) (fun _ _ _ _ => trivial) ran
  rw [← same]
  exact (quiet_of_runOnce plain stepped).2

theorem normalized_of_phaseStep {phase : List (Pass SimplifyM)}
    (ends : ∀ mid, runOnce s.verify phase w = .ok true mid → s.NormalizeEnds mid)
    (ran : s.phaseStep phase w = .ok true after) : Quiet s.normalize after.program := by
  obtain ⟨changed, mid, stepped, ran⟩ := exists_of_bind_ok ran
  split at ran
  · rename_i both
    obtain ⟨rfl, there⟩ := (Bool.and_eq_true _ _).mp both
    obtain ⟨_, last, normalized, ran⟩ := exists_of_bind_ok ran
    obtain ⟨-, rfl⟩ := EStateM.Result.ok.inj ran
    obtain ⟨_, normalized⟩ := exists_of_discard normalized
    exact quiet_of_runNormalize plain (ends mid stepped) (by simpa using there) normalized
  · rename_i notBoth
    obtain ⟨rfl, rfl⟩ := EStateM.Result.ok.inj ran
    have none : s.normalize = [] := by simpa using notBoth
    rw [none]
    exact nofun

end Normalized

theorem quiet_of_phaseStep {phase : List (Pass SimplifyM)} (plain : ∀ pass ∈ phase, pass.IsPlain)
    (ran : s.phaseStep phase w = .ok false after) :
    after.program = w.program ∧ Quiet phase w.program := by
  obtain ⟨changed, mid, stepped, ran⟩ := exists_of_bind_ok ran
  cases changed with
  | false =>
    obtain ⟨-, rfl⟩ := EStateM.Result.ok.inj ran
    exact quiet_of_runOnce plain stepped
  | true =>
    refine absurd ran ?_
    dsimp only
    split
    · exact Affirms.thenYes _ _
    · exact Affirms.yes _ _

theorem quiet_of_runPhase {phase : List (Pass SimplifyM)} (plain : ∀ pass ∈ phase, pass.IsPlain)
    (positive : 0 < s.limits.phaseIterations) (ran : s.runPhase phase w = .ok false after) :
    after.program = w.program ∧ Quiet phase w.program := by
  unfold runPhase at ran
  split at ran
  · rename_i isEmpty
    obtain ⟨-, rfl⟩ := EStateM.Result.ok.inj ran
    rw [List.isEmpty_iff.mp isEmpty]
    exact ⟨rfl, nofun⟩
  · exact quiet_of_phaseStep plain (step_of_repeatWhile positive ran)

theorem normalized_of_runPhase {phase : List (Pass SimplifyM)}
    (plain : ∀ pass ∈ phase, pass.IsPlain) (normalPlain : ∀ pass ∈ s.normalize, pass.IsPlain)
    (ends : s.PhaseEnds phase w) (ran : s.runPhase phase w = .ok true after) :
    Quiet s.normalize after.program := by
  unfold runPhase at ran
  split at ran
  · cases (EStateM.Result.ok.inj ran).1
  · rename_i there
    exact (exists_of_ends _ (ends (by simpa using there))
      (fun _ _ stepped => (quiet_of_phaseStep plain stepped).1)
        (fun _ _ good stepped => normalized_of_phaseStep normalPlain good stepped) ran).2 rfl

theorem normalized_of_phases {phases : List (List (Pass SimplifyM))}
    (plain : ∀ phase ∈ phases, ∀ pass ∈ phase, pass.IsPlain)
    (normalPlain : ∀ pass ∈ s.normalize, pass.IsPlain) (positive : 0 < s.limits.phaseIterations)
    (ends : s.PhasesEnd phases w) (ran : anyChange phases s.runPhase w = .ok changed after)
    (reason : changed = true ∨ Quiet s.normalize w.program) : Quiet s.normalize after.program := by
  induction phases generalizing w changed with
  | nil =>
    obtain ⟨rfl, rfl⟩ := EStateM.Result.ok.inj ran
    exact reason.resolve_left nofun
  | cons head rest induction =>
    rw [List.forall_mem_cons] at plain
    rw [anyChange_cons] at ran
    obtain ⟨first, mid, others, phaseRan, restRan, rfl⟩ := exists_of_or ran
    refine induction plain.2 (ends.2 _ _ phaseRan) restRan ?_
    cases first with
    | true => exact .inr (normalized_of_runPhase plain.1 normalPlain ends.1 phaseRan)
    | false =>
      rw [Bool.false_or] at reason
      rwa [(quiet_of_runPhase plain.1 positive phaseRan).1]

section Plain

variable (plain : ∀ pass ∈ s.passes, pass.IsPlain) (positive : 0 < s.limits.phaseIterations)

include plain in
theorem isPlain_of_phases (phase : List (Pass SimplifyM)) (isPhase : phase ∈ s.phases)
    (pass : Pass SimplifyM) (member : pass ∈ phase) : pass.IsPlain :=
  plain pass (List.mem_append_left _ (List.mem_flatten.mpr ⟨phase, isPhase, member⟩))

include plain in
theorem isPlain_of_normalize (pass : Pass SimplifyM) (member : pass ∈ s.normalize) : pass.IsPlain :=
  plain pass (List.mem_append_right _ member)

include plain positive

theorem quiet_of_iteration (ran : s.iteration first w = .ok false after) :
    after.program = w.program ∧ Quiet s.phases.flatten w.program ∧
      (first = true → Quiet s.normalize w.program) := by
  obtain ⟨changed, mid, phasesRan, ran⟩ := exists_of_bind_ok ran
  have phasesQuiet (none : changed = false) : mid.program = w.program ∧
      Quiet s.phases.flatten w.program := by
    rw [none] at phasesRan
    obtain ⟨same, quiet⟩ := of_anyChange _ (fun phase isPhase _ _ phaseRan =>
      quiet_of_runPhase (isPlain_of_phases plain phase isPhase) positive phaseRan) phasesRan
    refine ⟨same, fun pass member => ?_⟩
    obtain ⟨phase, isPhase, isPass⟩ := List.mem_flatten.mp member
    exact quiet phase isPhase pass isPass
  split at ran
  · rename_i both
    simp only [Bool.and_eq_true, Bool.not_eq_true'] at both
    obtain ⟨same, quiet⟩ := phasesQuiet both.1.2
    obtain ⟨still, normal⟩ := quiet_of_runOnce (isPlain_of_normalize plain)
      (step_of_repeatWhile positive ran)
    rw [same] at still normal
    exact ⟨still, quiet, fun _ => normal⟩
  · rename_i notBoth
    obtain ⟨rfl, rfl⟩ := EStateM.Result.ok.inj ran
    obtain ⟨same, quiet⟩ := phasesQuiet rfl
    refine ⟨same, quiet, fun isFirst => ?_⟩
    have none : s.normalize = [] := by simpa [isFirst] using notBoth
    rw [none]
    exact nofun

theorem normalized_of_iteration (ends : s.IterationEnds first w)
    (ran : s.iteration first w = .ok changed after)
    (reason : changed = true ∨ first = true ∨ Quiet s.normalize w.program) :
    Quiet s.normalize after.program := by
  obtain ⟨phasesChanged, mid, phasesRan, ran⟩ := exists_of_bind_ok ran
  have normalized := normalized_of_phases (isPlain_of_phases plain) (isPlain_of_normalize plain)
    positive ends.1 phasesRan
  split at ran
  · rename_i both
    simp only [Bool.and_eq_true, Bool.not_eq_true'] at both
    obtain ⟨⟨isFirst, rfl⟩, there⟩ := both
    exact quiet_of_runNormalize (isPlain_of_normalize plain) (ends.2 mid isFirst phasesRan)
      (by simpa using there) ran
  · rename_i notBoth
    obtain ⟨rfl, rfl⟩ := EStateM.Result.ok.inj ran
    rcases reason with isChanged | isFirst | quiet
    · exact normalized (.inl isChanged)
    · cases phasesChanged with
      | true => exact normalized (.inl rfl)
      | false =>
        have none : s.normalize = [] := by simpa [isFirst] using notBoth
        rw [none]
        exact nofun
    · exact normalized (.inr quiet)

end Plain

/-! ### Runs -/

/-- Iterations from a workspace, each with whether it reported a change. -/
inductive Iterations (s : Schedule SimplifyM) (w : Workspace) : List Bool → Workspace → Prop
  | start : Iterations s w [] w
  | next {flags : List Bool} {mid after : Workspace} {changed : Bool}
      (before : Iterations s w flags mid)
      (ran : s.iteration (flags.length = 0) mid = .ok changed after) :
      Iterations s w (flags ++ [changed]) after

/-- The last of some iterations changed nothing, as many as are asked for, and never before were
there so many in a row. -/
def EndsAtFirst (quiet : Nat) (flags : List Bool) : Prop :=
  List.replicate quiet false <:+ flags ∧ ¬List.replicate quiet false <:+: flags.dropLast

def Streak (stable : Nat) (flags : List Bool) : Prop :=
  ∃ earlier, flags = earlier ++ List.replicate stable false ∧ earlier.getLast? ≠ some false

namespace Streak

variable {stable asked : Nat} {flags : List Bool}

theorem quiet (streak : Streak stable flags) : Streak (stable + 1) (flags ++ [false]) := by
  obtain ⟨earlier, rfl, changed⟩ := streak
  exact ⟨earlier, by rw [List.replicate_succ', List.append_assoc], changed⟩

theorem change (flags : List Bool) :
    Streak 0 (flags ++ [true]) := ⟨flags ++ [true], by simp, by simp⟩

theorem suffix_of_le (streak : Streak stable flags) (le : asked ≤ stable) :
    List.replicate asked false <:+ flags := by
  obtain ⟨earlier, rfl, -⟩ := streak
  refine .trans ⟨List.replicate (stable - asked) false, ?_⟩ (List.suffix_append _ _)
  rw [List.replicate_append_replicate, Nat.sub_add_cancel le]

theorem le_of_suffix (streak : Streak stable flags)
    (suffix : List.replicate asked false <:+ flags) :
    asked ≤ stable := by
  obtain ⟨earlier, rfl, changed⟩ := streak
  induction stable generalizing asked with
  | zero =>
    by_contra longer
    obtain ⟨less, rfl⟩ : ∃ less, asked = less + 1 := ⟨asked - 1, by omega⟩
    obtain ⟨before, same⟩ := suffix
    rw [List.replicate_zero, List.append_nil, List.replicate_succ', ← List.append_assoc] at same
    rw [← same, List.getLast?_concat] at changed
    exact changed rfl
  | succ stable induction =>
    cases asked with
    | zero => exact Nat.zero_le _
    | succ asked =>
      obtain ⟨before, same⟩ := suffix
      rw [List.replicate_succ', List.replicate_succ', ← List.append_assoc, ← List.append_assoc]
        at same
      exact Nat.succ_le_succ (induction ⟨before, (List.append_inj' same rfl).1⟩)

theorem fewer (streak : Streak stable (flags ++ [changed])) (less : stable < asked)
    (fewer : ¬List.replicate asked false <:+: flags) :
    ¬List.replicate asked false <:+: flags ++ [changed] := by
  rw [List.infix_concat_iff]
  rintro (suffix | before)
  · exact absurd (streak.le_of_suffix suffix) (Nat.not_le_of_lt less)
  · exact fewer before

end Streak

theorem exists_iterations_of_iterate {stable n : Nat} {flags : List Bool}
    (before : s.Iterations w flags mid) (streak : Streak stable flags)
    (fewer : ¬List.replicate (max 1 s.limits.stableIterations) false <:+: flags)
    (ran : s.iterate limit flags.length stable mid = .ok n after) :
    ∃ all, s.Iterations w all after ∧ all.length = n ∧
      (n < flags.length + limit → EndsAtFirst (max 1 s.limits.stableIterations) all) := by
  induction limit generalizing flags stable mid with
  | zero =>
    obtain ⟨rfl, rfl⟩ := EStateM.Result.ok.inj ran
    exact ⟨flags, before, rfl, fun less => absurd less (Nat.lt_irrefl _)⟩
  | succ limit induction =>
    obtain ⟨changed, last, iterated, ran⟩ := exists_of_bind_ok ran
    have next := before.next iterated
    have length : (flags ++ [changed]).length = flags.length + 1 := by simp
    have further {stable : Nat} (streak : Streak stable (flags ++ [changed]))
        (less : stable < max 1 s.limits.stableIterations)
        (ran : s.iterate limit (flags.length + 1) stable last = .ok n after) :
        ∃ all, s.Iterations w all after ∧ all.length = n ∧
          (n < flags.length + (limit + 1) → EndsAtFirst (max 1 s.limits.stableIterations) all) := by
      rw [← length] at ran
      obtain ⟨all, iterations, count, stops⟩ := induction next streak (streak.fewer less fewer) ran
      exact ⟨all, iterations, count, fun less => stops (by omega)⟩
    cases changed with
    | true => exact further (.change flags) (by omega) ran
    | false =>
      have streak := streak.quiet
      change (if s.limits.stableIterations ≤ stable + 1 then _ else _ : SimplifyM Nat) last = _
        at ran
      split at ran
      · rename_i enough
        obtain ⟨rfl, rfl⟩ := EStateM.Result.ok.inj ran
        refine ⟨_, next, length, fun _ => ⟨streak.suffix_of_le (by omega), ?_⟩⟩
        rwa [List.dropLast_concat]
      · exact further streak (by omega) ran

theorem exists_iterations_of_run {n : Nat} (ran : s.run w = .ok n after) :
    ∃ flags, s.Iterations w flags after ∧ flags.length = n ∧
      (n < s.limits.iterations → EndsAtFirst (max 1 s.limits.stableIterations) flags) := by
  have none : s.Iterations w [] w := .start
  have streak : Streak 0 [] := ⟨[], rfl, nofun⟩
  obtain ⟨flags, iterations, count, stops⟩ := exists_iterations_of_iterate none streak
    (fun within => by have := within.length_le; simp at this) ran
  exact ⟨flags, iterations, count, fun less => stops (by simpa using less)⟩

section Settled

variable (plain : ∀ pass ∈ s.passes, pass.IsPlain) (positive : 0 < s.limits.phaseIterations)

include plain positive

theorem normalized_of_iterations {flags : List Bool} (iterations : s.Iterations w flags after)
    (some_ : flags ≠ [])
    (ends : ∀ earlier mid, s.Iterations w earlier mid → earlier.length < flags.length →
      s.IterationEnds (earlier.length = 0) mid) : Quiet s.normalize after.program := by
  induction iterations with
  | start => exact absurd rfl some_
  | @next flags mid after changed before ran induction =>
    refine normalized_of_iteration plain positive (ends flags mid before (by simp)) ran ?_
    by_cases isFirst : flags = []
    · exact .inr (.inl (by simp [isFirst]))
    · exact .inr (.inr (induction isFirst fun earlier mid isEarlier less =>
        ends earlier mid isEarlier (by simp; omega)))

/-- A schedule of plain passes that stops before its limit has stopped at its first streak of
iterations without a change that is long enough; and if no loop on the way was cut off, none of its
passes changes the program any more. -/
theorem settled_after_run {n : Nat} (ran : s.run w = .ok n after) (less : n < s.limits.iterations) :
    ∃ flags, s.Iterations w flags after ∧ flags.length = n ∧
      EndsAtFirst (max 1 s.limits.stableIterations) flags ∧
      ((∀ earlier mid, s.Iterations w earlier mid → earlier.length < n →
          s.IterationEnds (earlier.length = 0) mid) → Quiet s.passes after.program) := by
  obtain ⟨flags, iterations, count, stops⟩ := exists_iterations_of_run ran
  have isFirst := stops less
  refine ⟨flags, iterations, count, isFirst, fun ends => ?_⟩
  subst count
  have last : [false] <:+ flags :=
    .trans ⟨List.replicate (max 1 s.limits.stableIterations - 1) false, by
    rw [← List.replicate_succ']
    congr 1
    omega⟩ isFirst.1
  cases iterations with
  | start => simp at last
  | @next flags mid after changed before ran =>
    have normalized := normalized_of_iterations plain positive (before.next ran) (by simp) ends
    obtain rfl : changed = false := by simpa using last
    obtain ⟨same, quiet, -⟩ := quiet_of_iteration plain positive ran
    rw [← same] at quiet
    intro pass member
    rcases List.mem_append.mp member with isPhase | isNormal
    · exact quiet pass isPhase
    · exact normalized pass isNormal

end Settled

/-! ### An instance -/

def unmark : Pass SimplifyM where
  name := "unmark"
  description := ""
  isReady := return true
  start := return
  run := SimplifyM.edit fun p => .ok (p.stale, { p with stale := false })
  finish := return

theorem isPlain_unmark : unmark.IsPlain where
  ready w := ⟨w.context, rfl⟩
  start w := ⟨w.context, rfl⟩
  run := by
    refine ⟨fun p => (p.stale, { p with stale := false }), fun p c => ⟨c, rfl⟩, fun p fresh => ?_⟩
    obtain ⟨tree, root, scopes, stale⟩ := p
    obtain rfl : stale = false := fresh
    rfl
  finish w := ⟨w.context, rfl⟩

theorem runOnce_unmark (w : Workspace) : ∃ c,
    runOnce false [unmark] w = .ok w.program.stale ⟨{ w.program with stale := false }, c⟩ := by
  obtain ⟨⟨tree, root, scopes, stale⟩, c⟩ := w
  cases stale <;> exact ⟨_, rfl⟩

def unmarking : Schedule SimplifyM := ⟨.default, false, [unmark], [], [], [], [unmark]⟩

theorem ends_of_unmarks (holds : ∀ w, good w)
    (unmarks : ∀ w after, step w = .ok true after →
      w.program.stale = true ∧ after.program.stale = false)
    (w : Workspace) :
    Ends step good (limit + 2) w := by
  refine ⟨holds w, fun after stepped => ⟨holds after, fun last again => ?_⟩⟩
  have isMarked := (unmarks after last again).1
  rw [(unmarks w after stepped).2] at isMarked
  cases isMarked

theorem normalizeEnds_unmarking (w : Workspace) : unmarking.NormalizeEnds w := by
  refine fun _ => ends_of_unmarks (fun _ => trivial) (fun w after ran => ?_) w
  obtain ⟨c, same⟩ := runOnce_unmark w
  obtain ⟨isMarked, rfl⟩ := EStateM.Result.ok.inj (same.symm.trans ran)
  exact ⟨isMarked, rfl⟩

theorem phaseStep_unmarking (w : Workspace) : ∃ c,
    unmarking.phaseStep [unmark] w =
      .ok w.program.stale ⟨{ w.program with stale := false }, c⟩ := by
  obtain ⟨⟨tree, root, scopes, stale⟩, c⟩ := w
  cases stale <;> exact ⟨_, rfl⟩

theorem iterationEnds_unmarking (isFirst : Bool) (w : Workspace) :
    unmarking.IterationEnds isFirst w := by
  refine ⟨⟨fun _ => ends_of_unmarks (fun _ mid _ => normalizeEnds_unmarking mid)
    (fun w after ran => ?_) w, fun _ _ _ =>
      ⟨fun there => absurd rfl there, fun _ _ _ => ⟨fun there => absurd rfl there, fun _ _ _ =>
        ⟨fun there => absurd rfl there, fun _ _ _ => trivial⟩⟩⟩⟩,
      fun after _ _ => normalizeEnds_unmarking after⟩
  obtain ⟨c, same⟩ := phaseStep_unmarking w
  obtain ⟨isMarked, rfl⟩ := EStateM.Result.ok.inj (same.symm.trans ran)
  exact ⟨isMarked, rfl⟩

theorem exists_settled_after_run :
    ∃ w after, w.program.stale = true ∧ unmarking.run w = .ok 3 after ∧
      ∃ flags, unmarking.Iterations w flags after ∧ flags.length = 3 ∧ EndsAtFirst 2 flags ∧
        Quiet unmarking.passes after.program := by
  have plain : ∀ pass ∈ unmarking.passes, pass.IsPlain := by
    intro pass member
    obtain rfl : pass = unmark := by simpa [passes, phases, unmarking] using member
    exact isPlain_unmark
  obtain ⟨after, ran⟩ :
    ∃ after, unmarking.run ⟨{ (default : Program) with stale := true }, default⟩ = .ok 3 after :=
      ⟨_, rfl⟩
  obtain ⟨flags, iterations, count, isFirst, settles⟩ := settled_after_run plain (by decide)
    ran (by decide)
  exact ⟨_, after, rfl, ran, flags, iterations, count, isFirst,
    settles fun earlier mid _ _ => iterationEnds_unmarking _ mid⟩

end Schedule

end Unravel
