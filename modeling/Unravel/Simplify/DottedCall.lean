import Unravel.Simplify.Basic
import Unravel.Source.Name
import Unravel.Tree.Graft

/-!
Dotted calls: `base["name"](…)` becomes `base.name(…)` where the key is an identifier name.
-/

namespace Unravel.DottedCall

def isCall : Node NodeId → Bool
  | .call .. => true
  | _ => false

/-- The callee of a call, its base and its key, if it can be written with a dot. -/
def plan? (p : Program) (call : NodeId) : Option (NodeId × NodeId × String) :=
  match p.node call with
  | .call callee _ =>
    match p.node callee with
    | .member base key true =>
      match (p.node key).string? with
      | some name => if Source.isIdentifierName name then some (callee, base, name) else none
      | none => none
    | _ => none
  | _ => none

def step (call : NodeId) : SimplifyM Bool := do
  match plan? (← SimplifyM.program) call with
  | none => return false
  | some (callee, base, name) =>
    let member ← SimplifyM.build do Tree.dotMember (← Tree.copy base) name
    SimplifyM.replaceAndRecord .callNormalized "" callee member
    return true

def run : SimplifyM Bool :=
  SimplifyM.visit (fun p id => isCall (p.node id)) step

end Unravel.DottedCall
