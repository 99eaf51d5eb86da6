import Unravel.Simplify.Basic
import Unravel.Simplify.Shape

/-!
Operator proxies: functions of two arguments that only apply an operator to them. Calls of such
a function through a key become the operator, and its definition goes away once the key is not
read any more. Keys are matched by name, whatever object they belong to.
-/

namespace Unravel.Proxy

/-- Names that every object inherits; their meaning is known without a definition. -/
def inheritedNames : List String :=
  ["toString", "constructor", "hasOwnProperty", "isPrototypeOf", "propertyIsEnumerable",
    "toLocaleString", "valueOf", "__proto__", "__defineGetter__", "__defineSetter__",
    "__lookupGetter__", "__lookupSetter__"]

def ofFunction? (p : Program) (function : NodeId) : Option OperatorProxy := do
  let f ← (p.node function).function?
  let returned ← p.tree.singleReturn? function
  match f.params, p.node returned with
  | [a, b], .binary operator left right =>
    let nameA ← (p.node a).identifier?
    let nameB ← (p.node b).identifier?
    let bindingA ← p.bindingOf? a
    let bindingB ← p.bindingOf? b
    if f.isGenerator || f.isAsync || nameA = nameB then none
    else if p.bindingOf? left = some bindingA && p.bindingOf? right = some bindingB then
      some ⟨operator, false⟩
    else if p.bindingOf? left = some bindingB && p.bindingOf? right = some bindingA then
      some ⟨operator, true⟩
    else none
  | _, _ => none

/-- A definition: the statement or property, the member that a statement writes, and the proxy
under its key. -/
structure Definition where
  node : NodeId
  target : Option NodeId
  key : String
  proxy : OperatorProxy

/-- The parts of a statement `base.key = value` or of a property `key: value`. -/
def keyed? (p : Program) (id : NodeId) : Option (Option NodeId × String × NodeId) :=
  match p.node id with
  | .expressionStatement expression =>
    match p.node expression with
    | .assignment .assign left right => do return (some left, ← p.tree.memberName? left, right)
    | _ => none
  | .property _ value _ => do return (none, ← p.tree.propertyName? id, value)
  | _ => none

def definition? (p : Program) (id : NodeId) : Option Definition := do
  let (target, key, value) ← keyed? p id
  if key ∈ inheritedNames then none
  else return ⟨id, target, key, ← ofFunction? p value⟩

/-- Whether a base can hold proxies. -/
def isBase : Node NodeId → Bool
  | .identifier _ | .member .. => true
  | _ => false

def call? (p : Program) (c : Context) (call : NodeId) :
    Option (OperatorProxy × NodeId × NodeId) :=
  match p.node call with
  | .call callee [first, second] =>
    match p.node callee with
    | .member base _ _ => do
      if isBase (p.node base) then
        return (← c.operators.proxy? (← p.tree.memberName? callee), first, second)
      else none
    | _ => none
  | _ => none

/-- The operator applied to copies of the arguments. -/
def applied (proxy : OperatorProxy) (first second : NodeId) : StateM Tree NodeId := do
  let first ← Tree.copy first
  let second ← Tree.copy second
  if proxy.swapped then Tree.alloc (.binary proxy.operator second first)
  else Tree.alloc (.binary proxy.operator first second)

def callStep (call : NodeId) : SimplifyM Bool := do
  match call? (← SimplifyM.program) (← SimplifyM.context) call with
  | none => return false
  | some (proxy, first, second) =>
    let operation ← SimplifyM.build (applied proxy first second)
    SimplifyM.replaceAndRecord .operatorInlined "" call operation
    return true

/-- Whether a member expression reads a key. -/
def isRead (p : Program) (key : String) : Bool :=
  p.nodes.any fun id => p.tree.memberName? id = some key && !p.tree.isWriteTarget id

/-- Whether a definition is of no more use. -/
def isSpent (p : Program) (c : Context) (d : Definition) : Bool :=
  p.isAttached d.node && c.operators.proxy? d.key = some d.proxy && !isRead p d.key
    && d.target.all p.isAttached

def removeStep (d : Definition) : SimplifyM Bool := do
  if isSpent (← SimplifyM.program) (← SimplifyM.context) d then
    let text ← SimplifyM.snippet d.node
    SimplifyM.remove d.node
    SimplifyM.record .declarationRemoved d.node ("operator proxy " ++ text)
    return true
  else return false

/-- Registers the proxies that the definitions found so far stand for. -/
def register (definitions : List Definition) : SimplifyM Unit :=
  modify fun w =>
    let operators := definitions.foldl (fun table d => table.register d.key d.proxy)
      w.context.operators
    { w with context := { w.context with operators } }

def isCall : Node NodeId → Bool
  | .call .. => true
  | _ => false

def run : SimplifyM Bool := do
  let p ← SimplifyM.program
  let definitions := p.nodes.filterMap (definition? p)
  register definitions
  let expanded ← SimplifyM.visit (fun p id => isCall (p.node id)) callStep
  let removed ← SimplifyM.anyChange definitions removeStep
  return expanded || removed

end Unravel.Proxy
