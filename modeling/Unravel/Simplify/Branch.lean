import Unravel.Eval.Expression
import Unravel.Simplify.Basic

/-!
Branches: a choice whose test is known leaves the branch that is taken, and a loop that is never
entered goes away.
-/

namespace Unravel.Branch

def isCandidate : Node NodeId → Bool
  | .if_ .. | .conditional .. | .while_ .. => true
  | _ => false

structure Plan where
  form : String
  test : NodeId
  taken : Option NodeId

/-- What is left of a choice or loop whose test is known. -/
def plan? (p : Program) (id : NodeId) : Option Plan :=
  let known? (test : NodeId) : Option Bool := (p.evaluate? test).map Value.toBool
  match p.node id with
  | .if_ test consequent alternate =>
    (known? test).map fun truth => ⟨"if", test, if truth then some consequent else alternate⟩
  | .conditional test consequent alternate =>
    (known? test).map fun truth =>
      ⟨"ternary", test, some (if truth then consequent else alternate)⟩
  | .while_ test _ => if known? test = some false then some ⟨"while", test, none⟩ else none
  | _ => none

def step (id : NodeId) : SimplifyM Bool := do
  match plan? (← SimplifyM.program) id with
  | none => return false
  | some plan =>
    let test ← SimplifyM.snippet plan.test
    match plan.taken with
    | some branch => discard (SimplifyM.replace id (← SimplifyM.build (Tree.copy branch)))
    | none => SimplifyM.remove id
    SimplifyM.record .branchPruned id (plan.form ++ " (" ++ test ++ ")")
    return true

def run : SimplifyM Bool :=
  SimplifyM.visit (fun p id => isCandidate (p.node id)) step

end Unravel.Branch
