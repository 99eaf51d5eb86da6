import Unravel.Simplify.Template

/-!
Tables: object literals with static keys that are bound to a name and never written. A read of
an entry that is a literal or a template becomes a copy of it, and a call of an entry that is a
template is expanded.
-/

namespace Unravel.TableEntry

def table? (p : Program) (c : Context) (member place : NodeId) : Option NodeId :=
  match p.node member with
  | .member base _ _ => do
    let binding ← p.usedBinding? base
    let (declarator, init) ← p.initialized? binding
    if p.isConstantVariable binding && !c.isProtected (p.binding binding).name
      && !p.hasMemberWrites binding && p.tree.precedes declarator place then some init
    else none
  | _ => none

def found? (p : Program) (c : Context) (member place : NodeId) : Option NodeId := do
  let name ← p.tree.memberName? member
  p.tree.entryOf? (← table? p c member place) name

/-- Whether an entry can stand in the place of a read. -/
def isCopyable (p : Program) (member value : NodeId) : Bool :=
  p.tree.isLiteralValue value ||
    ((p.node value).function?.any fun f => f.name.isNone)
      && (p.template? value).any fun expression => p.meansSameAt value expression member

def isNamedMember (p : Program) (id : NodeId) : Bool :=
  match p.node id with
  | .member base _ _ => (p.node base).isIdentifier
  | _ => false

def readStep (member : NodeId) : SimplifyM Bool := do
  let p ← SimplifyM.program
  let c ← SimplifyM.context
  let value? :=
    if p.tree.isWriteTarget member then none
    else (found? p c member member).filter (isCopyable p member)
  match value? with
  | none => return false
  | some value =>
    let copy ← SimplifyM.build (Tree.copy value)
    SimplifyM.replaceAndRecord .propertyInlined "" member copy
    return true

def runReads : SimplifyM Bool := SimplifyM.visit isNamedMember readStep

def method? (p : Program) (c : Context) (call : NodeId) : Option (NodeId × NodeId × NodeId) :=
  match p.node call with
  | .call callee arguments => do
    let function ← found? p c callee call
    let f ← (p.node function).function?
    if f.params.length = arguments.length then
      return (callee, function, ← p.template? function)
    else none
  | _ => none

def isMemberCall (p : Program) (id : NodeId) : Bool :=
  match p.node id with
  | .call callee _ =>
    match p.node callee with
    | .member .. => true
    | _ => false
  | _ => false

def callStep (call : NodeId) : SimplifyM Bool := do
  match method? (← SimplifyM.program) (← SimplifyM.context) call with
  | none => return false
  | some (callee, function, expression) =>
    SimplifyM.expandCall function expression call (← SimplifyM.snippet callee)

def runCalls : SimplifyM Bool := SimplifyM.visit isMemberCall callStep

end Unravel.TableEntry
