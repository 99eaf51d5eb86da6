import Unravel.Simplify.Template

/-!
Calls of functions that are templates: calls of a declared function by its name, and calls of a
function expression on the spot.
-/

namespace Unravel.Call

def innermostFirst (p : Program) (calls : List NodeId) : List NodeId :=
  let depth (call : NodeId) : Nat := (p.tree.ancestors call).length
  ((calls.map fun call => (call, depth call)).mergeSort fun a b => b.2 ≤ a.2).map (·.1)

def callOf? (p : Program) (callee : NodeId) : Option NodeId := do
  let parent ← p.tree.parent? callee
  match p.node parent with
  | .call c _ => if c = callee then some parent else none
  | _ => none

/-- The binding of a function declaration whose calls may be expanded, and the expression they
stand for. -/
def plan? (p : Program) (c : Context) (function : NodeId) : Option (BindingId × NodeId) := do
  let f ← (p.node function).function?
  let binding ← p.bindingOf? (← f.name)
  let b := p.binding binding
  if b.isConstant && !c.isProtected b.name then
    return (binding, ← p.template? function)
  else none

/-- Expands all calls of a function declaration that can be expanded. -/
def expandNamed (function : NodeId) : SimplifyM Bool := do
  let p ← SimplifyM.program
  match plan? p (← SimplifyM.context) function with
  | none => return false
  | some (binding, expression) =>
    let b := p.binding binding
    SimplifyM.record .inlineCandidateIdentified function
      (b.name ++ " is a single-return template")
    SimplifyM.anyChange (innermostFirst p (b.references.filterMap (callOf? p))) fun call =>
      SimplifyM.ifAttached call (SimplifyM.expandCall function expression call b.name)

def isNamedDeclaration (node : Node NodeId) : Bool :=
  node.function?.any fun f => f.kind = .declaration && f.name.isSome

def runNamed : SimplifyM Bool :=
  SimplifyM.visit (fun p id => isNamedDeclaration (p.node id)) expandNamed

def immediate? (p : Program) (call : NodeId) : Option NodeId :=
  match p.node call with
  | .call callee _ =>
    if (p.node callee).function?.any fun f => f.kind = .expression then some callee else none
  | _ => none

def expandImmediate (call function : NodeId) : SimplifyM Bool := do
  match (← SimplifyM.program).template? function with
  | none => return false
  | some expression => SimplifyM.expandCall function expression call "IIFE"

def runImmediate : SimplifyM Bool := do
  let p ← SimplifyM.program
  let calls := (innermostFirst p (p.nodes.filter fun id => (immediate? p id).isSome)).filterMap
    fun call => (immediate? p call).map ((call, ·))
  SimplifyM.anyChange calls fun (call, function) =>
    SimplifyM.ifAttached call (expandImmediate call function)

end Unravel.Call
