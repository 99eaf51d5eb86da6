import Unravel.Eval.Expression
import Unravel.Simplify.Basic
import Unravel.Simplify.Shape

/-!
Flattened control flow: an endless loop around a switch that takes its cases in the order of a
known array becomes the case bodies in that order.
-/

namespace Unravel.FlatLoop

def jumpsOutWithin (t : Tree) : Nat → Bool → NodeId → Bool
  | 0, _, _ => false
  | limit + 1, inSwitch, id =>
    match t.node id with
    | .break_ => !inSwitch
    | .continue_ => true
    | .while_ .. | .for_ .. | .function _ => false
    | .switch .. => (t.node id).children.any (jumpsOutWithin t limit true)
    | node => node.children.any (jumpsOutWithin t limit inSwitch)

def jumpsOut (t : Tree) (id : NodeId) : Bool := jumpsOutWithin t t.size false id

def dispatch? (p : Program) (loop : NodeId) : Option (List Value × List NodeId) :=
  match p.node loop with
  | .while_ test body =>
    match p.node body with
    | .block [switch, tail] =>
      match p.node switch, p.node tail with
      | .switch discriminant cases, .break_ =>
        match p.node discriminant with
        | .member base _ true => do
          let truth ← p.evaluate? test
          let binding ← p.usedBinding? base
          let (_, init) ← p.initialized? binding
          let order ← (← p.evaluate? init).asArray?
          if truth.toBool && p.isConstantVariable binding then some (order, cases) else none
        | _ => none
      | _, _ => none
    | _ => none
  | _ => none

/-- The value of a case and its statements without the `continue` at their end. -/
def case? (p : Program) (case : NodeId) : Option (Value × List NodeId) :=
  match p.node case with
  | .switchCase (some test) consequent => do
    let value ← p.evaluate? test
    let last ← consequent.getLast?
    match p.node last with
    | .continue_ =>
      if consequent.dropLast.any (jumpsOut p.tree) then none
      else some (value, consequent.dropLast)
    | _ => none
  | _ => none

/-- Adds the statements of the first case with a given value. A case that declares names of its
block is taken only once. -/
def addCase (p : Program) (cases : List (Value × List NodeId)) :
    List Nat × List NodeId → Value → Option (List Nat × List NodeId)
  | (used, statements), value => do
    let index ← cases.findIdx? fun (test, _) => Value.strictEquals? value test = some true
    let (_, body) ← cases[index]?
    if index ∈ used && body.any (fun id => Program.isLexical (p.node id)) then none
    else some (index :: used, statements ++ body)

/-- The statements of a flattened loop in the order in which they run, and the number of cases
that are entered. -/
def plan? (p : Program) (loop : NodeId) : Option (List NodeId × Nat) := do
  let (order, cases) ← dispatch? p loop
  let (_, statements) ← order.foldlM (addCase p (← cases.mapM (case? p))) ([], [])
  return (statements, order.length)

def isLoop : Node NodeId → Bool
  | .while_ .. => true
  | _ => false

def step (loop : NodeId) : SimplifyM Bool := do
  match plan? (← SimplifyM.program) loop with
  | none => return false
  | some (statements, count) =>
    let block ← SimplifyM.build do Tree.alloc (.block (← statements.mapM Tree.copy))
    let placed ← SimplifyM.replace loop block
    SimplifyM.record .controlFlowRestructured placed
      (toString count ++ " cases in dispatch order")
    return true

def run : SimplifyM Bool := SimplifyM.visit (fun p id => isLoop (p.node id)) step

end Unravel.FlatLoop
