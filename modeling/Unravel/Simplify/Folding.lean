import Unravel.Eval.Expression
import Unravel.Simplify.Basic

/-!
Constant folding: an operation, call or choice whose value is certain becomes that value.
Expressions are visited from the outside in, so the largest one is folded.
-/

namespace Unravel

/-- The global name that the expression for a value would need. -/
def Value.neededGlobal? : Value → Option String
  | .undefined => some "undefined"
  | .number x => if x.isNaN then some "NaN" else if x.isInf then some "Infinity" else none
  | .array items => ofItems items
  | .object entries => ofEntries entries
  | _ => none
where
  ofItems : List Value → Option String
    | [] => none
    | item :: rest => item.neededGlobal?.orElse fun _ => ofItems rest
  ofEntries : List (String × Value) → Option String
    | [] => none
    | (_, value) :: rest => value.neededGlobal?.orElse fun _ => ofEntries rest

namespace Folding

def isCandidate : Node NodeId → Bool
  | .unary .. | .binary .. | .logical .. | .call .. | .conditional .. => true
  | _ => false

/-- The value to put into the place of an expression. -/
def plan? (p : Program) (id : NodeId) : Option Value :=
  (p.evaluate? id).filter fun value => value.neededGlobal?.all (p.isUnbound id)

def step (id : NodeId) : SimplifyM Bool := do
  match plan? (← SimplifyM.program) id with
  | none => return false
  | some value =>
    let folded ← SimplifyM.build value.encode
    if (← SimplifyM.program).tree.agrees folded id then return false
    else
      SimplifyM.replaceAndRecord .constantFolded "" id folded
      return true

def run : SimplifyM Bool :=
  SimplifyM.visit (fun p id => isCandidate (p.node id)) step

end Folding

end Unravel
