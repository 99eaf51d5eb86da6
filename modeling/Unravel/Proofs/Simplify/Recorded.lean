import Unravel.Proofs.Program.Remnant
import Unravel.Proofs.Simplify.Rules
import Unravel.Proofs.Simplify.Through
import Unravel.Simplify.Rule

/-!
What is recorded of a change. Simplifications only add events to the journal, and an action that
answers yes tells of it by an event that says that the tree was changed (`SimplifyM.Tells`). Two
rules do so in some cases only (`Rule.reports_iff`): a string that loses nothing but its spelling
and a use of an alias that is redirected are not recorded.
-/

namespace Unravel

/-! ### Journals -/

namespace Workspace

variable {w v u : Workspace} {e : Event}

/-- Of two workspaces the second has recorded further events. -/
def Extends (w v : Workspace) : Prop := w.context.journal.toList <+: v.context.journal.toList

/--
Among the further events of the second of two workspaces is one that says that the tree was changed.
-/
def Reports (w v : Workspace) : Prop :=
  ∃ events, v.context.journal.toList = w.context.journal.toList ++ events ∧
    ∃ e ∈ events, e.kind.isTransformation = true

/-- No further event says that the tree was changed. -/
structure Mutes (w v : Workspace) : Prop where
  toExtends : w.Extends v
  not_reports : ¬w.Reports v

def logged (w : Workspace) (e : Event) : Workspace :=
  { w with context := { w.context with journal := w.context.journal.record e } }

theorem Reports.toExtends (reports : w.Reports v) : w.Extends v := by
  obtain ⟨events, same, -⟩ := reports
  exact ⟨events, same.symm⟩

theorem Extends.of_eq (same : v.context.journal = w.context.journal) : w.Extends v := by
  rw [Extends]
  exact same ▸ List.prefix_rfl

theorem Extends.trans (first : w.Extends v) (second : v.Extends u) :
    w.Extends u := List.IsPrefix.trans first second

theorem Extends.reports_iff (first : w.Extends v) (second : v.Extends u) :
    w.Reports u ↔ w.Reports v ∨ v.Reports u := by
  obtain ⟨earlier, isEarlier⟩ := first
  obtain ⟨later, isLater⟩ := second
  have whole : u.context.journal.toList = w.context.journal.toList ++ (earlier ++ later) := by
    rw [← isLater, ← isEarlier, List.append_assoc]
  constructor
  · rintro ⟨events, same, e, member, isTransformation⟩
    rw [whole] at same
    rw [← List.append_cancel_left same, List.mem_append] at member
    exact member.imp (fun early => ⟨earlier, isEarlier.symm, e, early, isTransformation⟩)
      fun late => ⟨later, isLater.symm, e, late, isTransformation⟩
  · rintro (⟨events, same, e, member, isTransformation⟩ |
      ⟨events, same, e, member, isTransformation⟩)
    · rw [← isEarlier] at same
      have member := List.append_cancel_left same ▸ member
      exact ⟨_, whole, e, List.mem_append_left _ member, isTransformation⟩
    · rw [← isLater] at same
      have member := List.append_cancel_left same ▸ member
      exact ⟨_, whole, e, List.mem_append_right _ member, isTransformation⟩

theorem Reports.before (first : w.Extends v) (second : v.Reports u) : w.Reports u :=
  (first.reports_iff second.toExtends).mpr (.inr second)

theorem Reports.after (first : w.Reports v) (second : v.Extends u) : w.Reports u :=
  (first.toExtends.reports_iff second).mpr (.inl first)

namespace Mutes

theorem of_eq (same : v.context.journal = w.context.journal) : w.Mutes v := by
  refine ⟨.of_eq same, ?_⟩
  rintro ⟨events, isWhole, e, member, -⟩
  rw [same, List.self_eq_append_right] at isWhole
  rw [isWhole] at member
  cases member

theorem trans (first : w.Mutes v) (second : v.Mutes u) : w.Mutes u := by
  refine ⟨first.toExtends.trans second.toExtends, fun reports => ?_⟩
  rcases (first.toExtends.reports_iff second.toExtends).mp reports with early | late
  · exact first.not_reports early
  · exact second.not_reports late

/-- What came before without a word does not matter. -/
theorem reports_iff (first : w.Mutes v) (second : v.Extends u) : w.Reports u ↔ v.Reports u := by
  rw [first.toExtends.reports_iff second, or_iff_right first.not_reports]

end Mutes

theorem reports_logged (isTransformation : e.kind.isTransformation = true) :
    w.Reports (w.logged e) :=
  ⟨[e], Journal.toList_record .., e, List.mem_singleton_self _, isTransformation⟩

theorem mutes_logged (notTransformation : e.kind.isTransformation = false) :
    w.Mutes (w.logged e) := by
  have added : (w.logged e).context.journal.toList = w.context.journal.toList ++ [e] :=
    Journal.toList_record ..
  refine ⟨⟨[e], added.symm⟩, ?_⟩
  rintro ⟨events, same, other, member, isTransformation⟩
  rw [added] at same
  rw [← List.append_cancel_left same, List.mem_singleton] at member
  rw [member, notTransformation] at isTransformation
  cases isTransformation

end Workspace

open Workspace

/-! ### Actions -/

namespace SimplifyM

variable {α β : Type} {w v : Workspace} {kind : EventKind}

/-- Whenever an action succeeds it has only added events. -/
def Adds (action : SimplifyM α) : Prop := ∀ w result v, action w = .ok result v → w.Extends v

def Silent (action : SimplifyM α) : Prop := ∀ w result v, action w = .ok result v → w.Mutes v

/-- Whenever an action succeeds it has recorded a change. -/
def Records (action : SimplifyM α) : Prop := ∀ w result v, action w = .ok result v → w.Reports v

def Tells (action : SimplifyM Bool) : Prop :=
  ∀ w answer v, action w = .ok answer v → w.Extends v ∧ (w.Reports v ↔ answer = true)

namespace Silent

theorem of_eq {action : SimplifyM α}
    (same : ∀ w result v, action w = .ok result v → v.context.journal = w.context.journal) :
    Silent action :=
  fun w result v ran => .of_eq (same w result v ran)

theorem pure (result : α) : Silent (pure result : SimplifyM α) :=
  of_eq fun _ _ _ ran => (EStateM.Result.ok.inj ran).2 ▸ rfl

theorem throw (e : Error) : Silent (throw e : SimplifyM α) := fun _ _ _ ran => nomatch ran

theorem edit (f : Program → Except Error (α × Program)) : Silent (SimplifyM.edit f) := by
  refine of_eq fun w result v ran => ?_
  rw [SimplifyM.edit] at ran
  split at ran
  · obtain ⟨-, rfl⟩ := EStateM.Result.ok.inj ran
    rfl
  · cases ran

theorem program :
    Silent SimplifyM.program := of_eq fun _ _ _ ran => (EStateM.Result.ok.inj ran).2 ▸ rfl

theorem context :
    Silent SimplifyM.context := of_eq fun _ _ _ ran => (EStateM.Result.ok.inj ran).2 ▸ rfl

theorem snippet (id : NodeId) : Silent (SimplifyM.snippet id) :=
  of_eq fun _ _ _ ran => (EStateM.Result.ok.inj ran).2 ▸ rfl

theorem nodesWhere (test : Program → NodeId → Bool) : Silent (SimplifyM.nodesWhere test) :=
  of_eq fun _ _ _ ran => (EStateM.Result.ok.inj ran).2 ▸ rfl

theorem register (definitions : List Proxy.Definition) : Silent (Proxy.register definitions) :=
  of_eq fun _ _ _ ran => (EStateM.Result.ok.inj ran).2 ▸ rfl

theorem log {e : Event} (notTransformation : e.kind.isTransformation = false) :
    Silent (SimplifyM.log e) :=
  fun _ _ _ ran => (EStateM.Result.ok.inj ran).2 ▸ mutes_logged notTransformation

theorem bind {action : SimplifyM α} {next : α → SimplifyM β} (first : Silent action)
    (rest : ∀ a, Silent (next a)) :
    Silent (action >>= next) := by
  intro w result v ran
  obtain ⟨a, mid, stepped, ran⟩ := exists_of_bind_ok ran
  exact (first w a mid stepped).trans (rest a mid result v ran)

theorem discard {action : SimplifyM α} (silent : Silent action) : Silent (Functor.discard action) :=
  bind silent fun _ => pure _

theorem forIn {items : List α} {body : α → PUnit → SimplifyM (ForInStep PUnit)}
    (each : ∀ item, Silent (body item .unit)) : Silent (forIn items PUnit.unit body) := by
  induction items with
  | nil => exact pure _
  | cons head rest induction =>
    rw [List.forIn_cons]
    refine bind (each head) fun step => ?_
    split
    · exact pure _
    · exact induction

theorem foldlM {items : List α} {step : β → α → SimplifyM β}
    (each : ∀ state item, Silent (step state item)) (start : β) :
    Silent (items.foldlM step start) := by
  induction items generalizing start with
  | nil => exact pure _
  | cons head rest induction =>
    rw [List.foldlM_cons]
    exact bind (each start head) induction

end Silent

theorem SparesContext.silent {action : SimplifyM α} (spares : SparesContext action) :
    Silent action :=
  .of_eq fun w _ _ ran => by rw [((spares w).of_ok ran).1]

theorem Adds.bind {action : SimplifyM α} {next : α → SimplifyM β} (first : Adds action)
    (rest : ∀ a, Adds (next a)) :
    Adds (action >>= next) := by
  intro w result v ran
  obtain ⟨a, mid, stepped, ran⟩ := exists_of_bind_ok ran
  exact (first w a mid stepped).trans (rest a mid result v ran)

theorem Silent.adds {action : SimplifyM α} (silent : Silent action) : Adds action :=
  fun w result v ran => (silent w result v ran).toExtends

namespace Records

theorem log {e : Event} (isTransformation : e.kind.isTransformation = true) :
    Records (SimplifyM.log e) :=
  fun _ _ _ ran => (EStateM.Result.ok.inj ran).2 ▸ reports_logged isTransformation

theorem record {node : NodeId} {message : String}
    (isTransformation : kind.isTransformation = true) :
    Records (SimplifyM.record kind node message) := log isTransformation

theorem after {action : SimplifyM α} {next : α → SimplifyM β} (first : Silent action)
    (rest : ∀ a, Records (next a)) :
    Records (action >>= next) := by
  intro w result v ran
  obtain ⟨a, mid, stepped, ran⟩ := exists_of_bind_ok ran
  exact .before (first w a mid stepped).toExtends (rest a mid result v ran)

theorem andThen {action : SimplifyM α} {next : α → SimplifyM β} (first : Records action)
    (rest : ∀ a, Adds (next a)) :
    Records (action >>= next) := by
  intro w result v ran
  obtain ⟨a, mid, stepped, ran⟩ := exists_of_bind_ok ran
  exact (first w a mid stepped).after (rest a mid result v ran)

theorem thenReturn {action : SimplifyM α} (records : Records action) (result : β) :
    Records (do let _ ← action; return result) :=
  records.andThen fun _ => (Silent.pure result).adds

theorem replaceAndRecord {label : String} {target replacement : NodeId}
    (isTransformation : kind.isTransformation = true) :
    Records (SimplifyM.replaceAndRecord kind label target replacement) :=
  after (.snippet _)
    fun _ => after (.edit _) fun _ => after (.snippet _) fun _ => record isTransformation

end Records

namespace Tells

theorem no : Tells (pure false) := by
  intro w answer v ran
  obtain ⟨rfl, rfl⟩ := EStateM.Result.ok.inj ran
  have mutes : w.Mutes w := .of_eq rfl
  exact ⟨mutes.toExtends, iff_of_false mutes.not_reports nofun⟩

theorem recorded {action : SimplifyM α} (records : Records action) :
    Tells (do let _ ← action; return true) := by
  intro w answer v ran
  have reports := records.thenReturn true w answer v ran
  obtain ⟨_, mid, -, ran⟩ := exists_of_bind_ok ran
  exact ⟨reports.toExtends, iff_of_true reports (EStateM.Result.ok.inj ran).1.symm⟩

theorem adds {action : SimplifyM Bool} (tells : Tells action) : Adds action :=
  fun w answer v ran => (tells w answer v ran).1

theorem of_affirms {action : SimplifyM Bool} {answer : Bool} (tells : Tells action)
    (affirms : Affirms action) (ran : action w = .ok answer v) : answer = true ∧ w.Reports v := by
  cases answer with
  | false => exact absurd ran (affirms w v)
  | true => exact ⟨rfl, (tells w true v ran).2.mpr rfl⟩

theorem bind {action : SimplifyM α} {next : α → SimplifyM Bool} (first : Silent action)
    (rest : ∀ a, Tells (next a)) :
    Tells (action >>= next) := by
  intro w answer v ran
  obtain ⟨a, mid, stepped, ran⟩ := exists_of_bind_ok ran
  have mutes := first w a mid stepped
  obtain ⟨added, reports⟩ := rest a mid answer v ran
  exact ⟨mutes.toExtends.trans added, (mutes.reports_iff added).trans reports⟩

theorem program {next : Program → SimplifyM Bool} (rest : ∀ p, Tells (next p)) :
    Tells (SimplifyM.program >>= next) := bind .program rest

theorem context {next : Context → SimplifyM Bool} (rest : ∀ c, Tells (next c)) :
    Tells (SimplifyM.context >>= next) := bind .context rest

/-- Two actions of which the second is made whatever the first answers. -/
theorem or {first second : SimplifyM Bool} (tells : Tells first) (further : Tells second) :
    Tells (do let x ← first; let y ← second; return x || y) := by
  intro w answer v ran
  obtain ⟨x, mid, y, stepped, steppedFurther, rfl⟩ := exists_of_or ran
  obtain ⟨added, reports⟩ := tells w x mid stepped
  obtain ⟨addedLater, reportsLater⟩ := further mid y v steppedFurther
  refine ⟨added.trans addedLater, ?_⟩
  rw [added.reports_iff addedLater, reports, reportsLater, Bool.or_eq_true]

theorem anyChange {items : List α} {step : α → SimplifyM Bool} (each : ∀ item, Tells (step item)) :
    Tells (SimplifyM.anyChange items step) := by
  induction items with
  | nil => exact no
  | cons head rest induction =>
    rw [anyChange_cons]
    exact .or (each head) induction

theorem ifAttached {id : NodeId} {step : SimplifyM Bool} (tells : Tells step) :
    Tells (SimplifyM.ifAttached id step) := by
  refine program fun p => ?_
  split
  · exact tells
  · exact no

theorem visit {test : Program → NodeId → Bool} {step : NodeId → SimplifyM Bool}
    (each : ∀ id, Tells (step id)) :
    Tells (SimplifyM.visit test step) :=
  bind (.nodesWhere test) fun _ => anyChange fun id => ifAttached (each id)

end Tells

end SimplifyM

open SimplifyM

/-! ### The rules that record all changes -/

theorem Alias.tells_collapseAt (sites : List NodeId) : Tells (collapseAt sites) := by
  refine .program fun p => .anyChange fun site => .ifAttached (.program fun q => ?_)
  split
  · exact .no
  · exact .bind (.edit _) fun _ => .bind (.edit _) fun _ => .recorded (.record rfl)

theorem ArrayRead.tells : Tells ArrayRead.run := by
  refine .visit fun declarator => .program fun p => ?_
  split
  · split
    · exact .no
    · exact .context fun c => .anyChange fun _ => .ifAttached (.bind (.edit _) fun _ =>
        .recorded (.replaceAndRecord rfl))
  · exact .no

theorem Branch.tells : Tells Branch.run := by
  refine .visit fun id => .program fun p => ?_
  split
  · exact .no
  · refine .bind (.snippet _) fun _ => ?_
    split
    · exact .bind (.edit _) fun _ => .bind (.discard (.edit _)) fun _ => .recorded (.record rfl)
    · exact .bind (.edit _) fun _ => .recorded (.record rfl)

theorem SimplifyM.tells_expandCall (function expression call : NodeId) (label : String) :
    Tells (expandCall function expression call label) := by
  refine .program fun p => ?_
  split
  · split
    · exact .bind (sparesContext_instantiate _ _).silent fun _ => .recorded (.replaceAndRecord rfl)
    · exact .no
  · exact .no

namespace Call

theorem tells_expandNamed (function : NodeId) : Tells (expandNamed function) := by
  refine .program fun p => .context fun c => ?_
  split
  · exact .no
  · exact .bind (.log rfl) fun _ => .anyChange fun call => .ifAttached (tells_expandCall _ _ _ _)

theorem tells_immediate : Tells runImmediate := by
  refine .program fun p => .anyChange fun (call, function) => .ifAttached (.program fun q => ?_)
  split
  · exact .no
  · exact tells_expandCall _ _ _ _

end Call

theorem ClassForm.tells : Tells ClassForm.run := by
  refine .visit fun function => .program fun p => .context fun c => ?_
  split
  · exact .no
  · refine .bind (.edit _)
      fun _ => .bind (.forIn fun _ => ?_) fun _ => .bind (.edit _) fun _ => .recorded (.record rfl)
    exact .bind (.edit _) fun _ => .pure _

theorem ConstantUse.tells : Tells ConstantUse.run := by
  refine .visit fun declarator => .program fun p => .context fun c => ?_
  split
  · exact .no
  · refine .bind (.snippet _)
      fun _ => .bind (.snippet _) fun _ => .bind (.forIn fun _ => ?_) fun _ =>
        .bind (.edit _) fun _ => .recorded (.record rfl)
    exact .bind (.edit _) fun _ => .bind (.discard (.edit _)) fun _ => .pure _

theorem DottedCall.tells : Tells DottedCall.run := by
  refine .visit fun call => .program fun p => ?_
  split
  · exact .no
  · exact .bind (.edit _) fun _ => .recorded (.replaceAndRecord rfl)

theorem FlatLoop.tells : Tells FlatLoop.run := by
  refine .visit fun loop => .program fun p => ?_
  split
  · exact .no
  · exact .bind (.edit _) fun _ => .bind (.edit _) fun _ => .recorded (.record rfl)

theorem Folding.tells : Tells Folding.run := by
  refine .visit fun id => .program fun p => ?_
  split
  · exact .no
  · refine .bind (.edit _) fun folded => .program fun q => ?_
    split
    · exact .no
    · exact .recorded (.replaceAndRecord rfl)

theorem Marshal.records_unwrapGroup (mode : MarshalMode) (group : Group) (value : String) :
    Records (unwrapGroup mode group value) := by
  refine .after (.forIn fun _ => .bind .program fun _ => ?_) fun _ => .after .program fun _ =>
    .after (.forIn fun _ => .bind (.edit _) fun _ => .bind (.discard (.edit _)) fun _ => .pure _)
      fun _ => .log rfl
  split
  · exact .bind (.edit _) fun _ => .pure _
  · exact .pure _

theorem Marshal.tells (function : String) (mode : MarshalMode) :
    Tells (Marshal.run function mode) := by
  refine .context fun c => .program fun p => .anyChange fun group => ?_
  split
  · exact .no
  · exact .recorded (records_unwrapGroup _ _ _)

theorem ObjectLiteral.tells : Tells ObjectLiteral.run := by
  refine .visit fun declarator => .program fun p => ?_
  split
  · exact .no
  · refine .bind (.edit _)
      fun _ => .bind (.forIn fun _ => .bind (.edit _) fun _ => .pure _) fun _ => ?_
    exact .bind (.edit _) fun _ => .bind (.discard (.edit _)) fun _ => .recorded (.record rfl)

theorem Proxy.tells : Tells Proxy.run := by
  refine .program
    fun p => .bind (.register _) fun _ => .or (.visit fun call => ?_) (.anyChange fun d => ?_)
  · refine .program fun q => .context fun c => ?_
    split
    · exact .no
    · exact .bind (.edit _) fun _ => .recorded (.replaceAndRecord rfl)
  · refine .program fun q => .context fun c => ?_
    split
    · exact .bind (.snippet _) fun _ => .bind (.edit _) fun _ => .recorded (.record rfl)
    · exact .no

namespace TableEntry

theorem tells_reads : Tells runReads := by
  refine .visit fun member => .program fun p => .context fun c => ?_
  dsimp only
  split
  · exact .no
  · exact .bind (.edit _) fun _ => .recorded (.replaceAndRecord rfl)

theorem tells_calls : Tells runCalls := by
  refine .visit fun call => .program fun p => .context fun c => ?_
  split
  · exact .no
  · exact .bind (.snippet _) fun _ => tells_expandCall _ _ _ _

end TableEntry

namespace Unused

theorem tells_removeStep (id : NodeId) : Tells (removeStep id) := by
  refine .program fun p => .context fun c => ?_
  split
  · exact .no
  · exact .bind (.snippet _) fun _ => .bind (.edit _) fun _ => .recorded (.record rfl)

theorem tells_step (id : NodeId) : Tells (step id) := by
  refine .program fun p => .context fun c => ?_
  dsimp only
  split
  · exact .or (Call.tells_expandNamed id) (tells_removeStep id)
  · exact .or .no (tells_removeStep id)

theorem tells_sweepWithin (limit : Nat) : Tells (sweepWithin limit) := by
  induction limit with
  | zero => exact .no
  | succ limit induction =>
    intro w answer v ran
    obtain ⟨changed, mid, swept, ran⟩ := exists_of_bind_ok ran
    obtain ⟨added, reports⟩ := Tells.visit tells_step w changed mid swept
    cases changed with
    | false =>
      obtain ⟨rfl, rfl⟩ := EStateM.Result.ok.inj ran
      exact ⟨added, reports⟩
    | true =>
      obtain ⟨_, last, sweptAgain, ran⟩ := exists_of_bind_ok ran
      obtain ⟨rfl, rfl⟩ := EStateM.Result.ok.inj ran
      obtain ⟨_, sweptAgain⟩ := exists_of_discard sweptAgain
      have further := induction.adds _ _ _ sweptAgain
      exact ⟨added.trans further, iff_of_true ((reports.mpr rfl).after further) rfl⟩

end Unused

end Unravel
