import Unravel.Simplify.Rule
import Unravel.Schedule.Basic

/-!
The engine: the schedule that settings ask for, and its run on a program.

First the structure of the code is recovered, then hidden values, then what is known is
simplified away and small functions and tables are inlined. In between, constants are folded,
unused declarations removed and objects and classes put together.
-/

namespace Unravel

def Rule.pass {m : Type → Type} [Monad m] [MonadLiftT SimplifyM m] (rule : Rule) : Pass m where
  name := rule.name
  description := rule.description
  isReady := return true
  start := return
  run := liftM rule.run
  finish := return

namespace Config

def enabled (flag : Bool) (rules : List Rule) : List Rule := if flag then rules else []

def restructureRules (c : Config) : List Rule :=
  enabled c.unflattening [.switchUnflattening] ++ enabled c.callNormalization [.computedCall]

def recoverRules (c : Config) : List Rule :=
  c.dispatchers.map (fun d => .dispatcherResolution d.name d.primitive)
    ++ c.marshalFunction.toList.map (fun function => .marshalUnwrap function c.marshalMode)
    ++ enabled c.unicodeDecode [.unicodeDecode]

def simplifyRules (c : Config) : List Rule :=
  enabled c.branchPruning [.branchPruning]
    ++ enabled c.aliasCollapsing [.initializerChain, .aliasCollapse]

def inliningRules (c : Config) : List Rule :=
  enabled c.functionInlining [.functionInlining, .iifeInlining]
    ++ enabled c.objectInlining [.objectMethodInlining, .memberPropertyInlining]
    ++ enabled c.binaryProxies [.binaryProxy]
    ++ enabled c.constInlining [.constInlining]
    ++ enabled c.arrayInlining [.arrayIndexInlining]

def normalizeRules (c : Config) : List Rule :=
  enabled c.constantFolding [.constantFolding]
    ++ enabled c.deadCodeElimination [.unusedDeclaration]
    ++ enabled c.objectReconstruction [.objectReconstruction]
    ++ enabled c.classReconstruction [.classReconstruction]

def limits (c : Config) : Limits := ⟨c.maxIterations, c.stableIterations, c.maxPhaseIterations⟩

def schedule (c : Config) : Schedule SimplifyM where
  limits := c.limits
  verify := c.verifyReferences
  restructure := c.restructureRules.map Rule.pass
  recover := c.recoverRules.map Rule.pass
  simplify := c.simplifyRules.map Rule.pass
  inlining := c.inliningRules.map Rule.pass
  normalize := c.normalizeRules.map Rule.pass

def register (c : Config) (dispatcher : Dispatcher) : Config :=
  { c with dispatchers := c.dispatchers ++ [dispatcher] }

/-- A program with a fresh context. The functions that later passes look for by name are
protected. -/
def workspace (c : Config) (p : Program) : Workspace :=
  ⟨p, (c.dispatchers.map (·.name) ++ c.marshalFunction.toList).foldl Context.protect
    (Context.ofConfig c)⟩

/-- Simplifies a program by the schedule. Gives the number of iterations with the workspace at
the end, or the error that stopped the schedule with the workspace at that point. -/
def process (c : Config) (p : Program) : EStateM.Result Error Workspace Nat :=
  c.schedule.run.run (c.workspace p)

end Config

end Unravel
