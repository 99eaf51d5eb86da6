import Unravel.Simplify.Basic

/-!
Runs of simplifications: what a step does when it succeeds, and what a run that has succeeded has
done. Some actions never answer no (`SimplifyM.Affirms`).
-/

namespace Unravel.SimplifyM

variable {α β : Type} {w w' : Workspace} {p after : Program} {c : Context}
  {target replacement placed : NodeId} {kind : EventKind} {label : String}

theorem program_bind (next : Program → SimplifyM β) : (program >>= next) w = next w.program w := rfl

theorem context_bind (next : Context → SimplifyM β) : (context >>= next) w = next w.context w := rfl

theorem snippet_bind (id : NodeId) (next : String → SimplifyM β) :
    (snippet id >>= next) w = next (w.program.snippet id) w := rfl

theorem nodesWhere_bind (test : Program → NodeId → Bool) (next : List NodeId → SimplifyM β) :
    (nodesWhere test >>= next) w = next (w.program.nodes.filter (test w.program)) w := rfl

theorem record_bind (kind : EventKind) (node : NodeId) (message : String)
    (next : Unit → SimplifyM β) :
    (record kind node message >>= next) w = next () { w with context := { w.context with
      journal := w.context.journal.record ⟨kind, message, some node, none⟩ } } := rfl

theorem remove_of_ok (done : p.remove target = .ok after) :
    remove target ⟨p, c⟩ = .ok () ⟨after, c⟩ := by
  rw [remove, edit, done]
  rfl

theorem build_bind (action : StateM Tree α) (next : α → SimplifyM β) :
    (build action >>= next) w = next (action w.program.tree).1
      { w with program := { w.program with tree := (action w.program.tree).2 } } := rfl

theorem bind_of_ok {action : SimplifyM α} {result : α} (next : α → SimplifyM β)
    (ran : action w = .ok result w') : (action >>= next) w = next result w' := by
  change EStateM.bind action next w = _
  rw [EStateM.bind, ran]

theorem discard_of_ok {action : SimplifyM α} {result : α} (ran : action w = .ok result w') :
    Functor.discard action w = .ok () w' := bind_of_ok (fun _ => pure ()) ran

/-- What has succeeded in two steps has succeeded in both. -/
theorem exists_of_bind_ok {action : SimplifyM α} {next : α → SimplifyM β} {result : β}
    (ran : (action >>= next) w = .ok result w') :
    ∃ mid between, action w = .ok mid between ∧ next mid between = .ok result w' := by
  change EStateM.bind action next w = _ at ran
  rw [EStateM.bind] at ran
  split at ran
  · rename_i mid between made
    exact ⟨mid, between, made, ran⟩
  · cases ran

theorem exists_of_discard {action : SimplifyM α} (ran : Functor.discard action w = .ok () w') :
    ∃ result, action w = .ok result w' := by
  have ran : (action >>= fun _ => pure ()) w = .ok () w' := ran
  obtain ⟨result, mid, stepped, ran⟩ := exists_of_bind_ok ran
  obtain ⟨-, rfl⟩ := EStateM.Result.ok.inj ran
  exact ⟨result, stepped⟩

theorem exists_of_or {first second : SimplifyM Bool} {result : Bool}
    (ran : (do let x ← first; let y ← second; return x || y) w = .ok result w') :
    ∃ x mid y, first w = .ok x mid ∧ second mid = .ok y w' ∧ result = (x || y) := by
  obtain ⟨x, mid, stepped, ran⟩ := exists_of_bind_ok ran
  obtain ⟨y, last, further, ran⟩ := exists_of_bind_ok ran
  obtain ⟨rfl, rfl⟩ := EStateM.Result.ok.inj ran
  exact ⟨x, mid, y, stepped, further, rfl⟩

/-- The first step of several, and then the others. -/
theorem anyChange_cons {ι : Type} (step : ι → SimplifyM Bool) (head : ι) (rest : List ι) :
    anyChange (head :: rest) step = do
      let first ← step head
      let others ← anyChange rest step
      return first || others := by
  have started (items : List ι) (start : Bool) :
      items.foldlM (fun changed item => return (← step item) || changed) start = do
        let others ← anyChange items step
        return start || others := by
    induction items generalizing start with
    | nil => cases start <;> rfl
    | cons head rest induction =>
      have unfolded (start : Bool) : (head :: rest).foldlM
          (fun changed item => return (← step item) || changed) start = do
            let first ← step head
            let others ← anyChange rest step
            return first || start || others := by
        simp only [List.foldlM_cons, bind_assoc, pure_bind, induction]
      rw [unfolded, show anyChange (head :: rest) step = _ from unfolded false]
      cases start <;> simp
  rw [anyChange, List.foldlM_cons]
  simp only [bind_assoc, pure_bind, Bool.or_false, started]

/-- An action never answers no. -/
def Affirms (action : SimplifyM Bool) : Prop := ∀ w w', action w ≠ .ok false w'

namespace Affirms

theorem yes : Affirms (pure true) := by
  intro w w' ran
  cases (EStateM.Result.ok.inj ran).1

theorem bind {action : SimplifyM α} {next : α → SimplifyM Bool} (rest : ∀ a, Affirms (next a)) :
    Affirms (action >>= next) := by
  intro w w' ran
  obtain ⟨a, mid, -, ran⟩ := exists_of_bind_ok ran
  exact rest a mid w' ran

theorem thenYes {action : SimplifyM α} : Affirms (do let _ ← action; return true) :=
  bind fun _ => yes

end Affirms

theorem replaceAndRecord_eq (kind : EventKind) (label : String)
    (done : p.replace target replacement = .ok (placed, after)) :
    ∃ c', replaceAndRecord kind label target replacement ⟨p, c⟩ = .ok () ⟨after, c'⟩ := by
  have replaced : SimplifyM.replace target replacement ⟨p, c⟩ = .ok placed ⟨after, c⟩ := by
    rw [replace, edit, done]
  let event : Event :=
    ⟨kind, label ++ p.snippet target ++ " → " ++ after.snippet placed, some placed, none⟩
  exact ⟨{ c with journal := c.journal.record event }, bind_of_ok _ replaced⟩

theorem of_replace_eq_ok (ran : replace target replacement w = .ok placed w') :
    w.program.replace target replacement = .ok (placed, w'.program) := by
  rw [replace, edit] at ran
  split at ran
  · rename_i done
    cases ran
    exact done
  · cases ran

theorem exists_of_replaceAndRecord
    (ran : replaceAndRecord kind label target replacement ⟨p, c⟩ = .ok () w') :
    ∃ placed, p.replace target replacement = .ok (placed, w'.program) := by
  cases done : p.replace target replacement with
  | ok result =>
    obtain ⟨c', recorded⟩ := replaceAndRecord_eq (c := c) kind label done
    rw [ran] at recorded
    cases recorded
    exact ⟨result.1, rfl⟩
  | error e =>
    have failed : replaceAndRecord kind label target replacement ⟨p, c⟩ = .error e ⟨p, c⟩ := by
      change EStateM.bind (SimplifyM.replace target replacement) _ ⟨p, c⟩ = _
      rw [EStateM.bind, replace, edit, done]
    rw [ran] at failed
    cases failed

end Unravel.SimplifyM
