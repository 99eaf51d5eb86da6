import Unravel.Schedule.Basic

/-!
Scripted passes: passes that change nothing and only report, as often as their script says, that
they did. They show the order in which a schedule runs its passes.
-/

namespace Unravel

/-- How a scripted pass behaves: how many of its runs report a change, which run fails, and
whether it fails before or after the runs or does not run at all. -/
structure Script where
  name : String
  description : String
  changes : Nat
  failingRun : Option Nat
  failsAtStart : Bool
  failsAtFinish : Bool
  skipped : Bool

/-- Simplification beside the number of runs of each scripted pass. -/
abbrev ScriptM := StateT (Nat → Nat) SimplifyM

namespace Script

/-- Reports the start or the end of a round of passes. -/
def report (script : Script) (moment : String) (fails : Bool) : SimplifyM Unit := do
  let text := script.name ++ " " ++ moment
  SimplifyM.log (.plain .info text)
  if fails then throw (.failed (text ++ " failed"))

def play (script : Script) (runs : Nat) : SimplifyM Bool := do
  if script.failingRun = some (runs + 1) then throw (.failed (script.name ++ " run failed"))
  else if runs < script.changes then
    SimplifyM.log (.plain .constantFolded
      (script.name ++ " " ++ toString (script.changes - runs)))
    return true
  else return false

def pass (script : Script) (number : Nat) : Pass ScriptM where
  name := script.name
  description := script.description
  isReady := return !script.skipped
  start := liftM (script.report "initialize" script.failsAtStart)
  run := do
    let runs := (← get) number
    modify fun counts i => if i = number then runs + 1 else counts i
    liftM (script.play runs)
  finish := liftM (script.report "finalize" script.failsAtFinish)

end Script

def Pass.noDescription : String := "No description available"

end Unravel
