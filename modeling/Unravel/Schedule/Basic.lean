import Unravel.Simplify.Basic

/-!
Schedules: passes in four phases, each of which is repeated until nothing changes, with passes in
between that bring the program back to a normal form. The whole is repeated until it is stable.

A schedule runs in any monad that can simplify, so that passes may keep a state of their own.
-/

namespace Unravel

/-- A step of a schedule: whether it is to run, what it does and what surrounds it. -/
structure Pass (m : Type → Type) where
  name : String
  description : String
  isReady : m Bool
  start : m Unit
  run : m Bool
  finish : m Unit

structure Limits where
  iterations : Nat
  stableIterations : Nat
  phaseIterations : Nat
deriving Inhabited

def Limits.default : Limits := ⟨5, 2, 15⟩

structure Schedule (m : Type → Type) where
  limits : Limits
  verify : Bool
  restructure : List (Pass m)
  recover : List (Pass m)
  simplify : List (Pass m)
  inlining : List (Pass m)
  normalize : List (Pass m)

namespace Schedule

variable {m : Type → Type} [Monad m] [MonadLiftT SimplifyM m]

/-- The phases in their order. -/
def phases (s : Schedule m) : List (List (Pass m)) :=
  [s.restructure, s.recover, s.simplify, s.inlining]

/-- The number of passes. -/
def size (s : Schedule m) : Nat := s.phases.flatten.length + s.normalize.length

def verifyAfter (name : String) : SimplifyM Unit := do
  match (← SimplifyM.program).verify with
  | .ok _ => return
  | .error e =>
    SimplifyM.log (.plain .error ("binding table diverged after " ++ name ++ ": " ++ e.message))
    throw e

/-- Runs a pass if it is ready and records that it changed something. -/
def runPass (verify : Bool) (pass : Pass m) : m Bool := do
  if !(← pass.isReady) then return false
  else if !(← pass.run) then return false
  else
    liftM (SimplifyM.log ⟨.passCompleted, pass.description, none, some pass.name⟩)
    if verify then liftM (verifyAfter pass.name)
    return true

def runOnce (verify : Bool) (passes : List (Pass m)) : m Bool := do
  for pass in passes do pass.start
  let changed ← passes.foldlM (fun changed pass => return (← runPass verify pass) || changed) false
  for pass in passes do pass.finish
  return changed

/-- Repeats a step as long as it changes something, at most `limit` times, and says whether it
ever did. -/
def repeatWhile (step : m Bool) : Nat → m Bool
  | 0 => return false
  | limit + 1 => do
    if ← step then
      discard (repeatWhile step limit)
      return true
    else return false

/-- Normalizes until nothing changes. -/
def runNormalize (s : Schedule m) : m Bool :=
  repeatWhile (runOnce s.verify s.normalize) s.limits.phaseIterations

def phaseStep (s : Schedule m) (phase : List (Pass m)) : m Bool := do
  let changed ← runOnce s.verify phase
  if changed && !s.normalize.isEmpty then discard s.runNormalize
  return changed

def runPhase (s : Schedule m) (phase : List (Pass m)) : m Bool :=
  if phase.isEmpty then return false
  else repeatWhile (s.phaseStep phase) s.limits.phaseIterations

/-- Runs all phases. The first time, a program that no phase changes is normalized all the
same. -/
def iteration (s : Schedule m) (first : Bool) : m Bool := do
  let changed ← s.phases.foldlM (fun changed phase => return (← s.runPhase phase) || changed) false
  if first && !changed && !s.normalize.isEmpty then s.runNormalize else return changed

/-- At most `limit` further iterations after `done` ones, the last `stable` of which changed
nothing. Says how many iterations there were in all. -/
def iterate (s : Schedule m) : Nat → Nat → Nat → m Nat
  | 0, done, _ => return done
  | limit + 1, done, stable => do
    if ← s.iteration (done = 0) then s.iterate limit (done + 1) 0
    else if s.limits.stableIterations ≤ stable + 1 then return done + 1
    else s.iterate limit (done + 1) (stable + 1)

/-- Runs the schedule until the program is stable or the limit is reached, and says after how
many iterations. -/
def run (s : Schedule m) : m Nat := s.iterate s.limits.iterations 0 0

end Schedule

end Unravel
