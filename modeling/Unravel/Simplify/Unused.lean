import Unravel.Simplify.Call

/-!
Unused declarations: variables and functions whose names are neither read nor written go away,
and with them what only they used. Calls of functions are expanded first where that is asked
for, so that a function can become unused.
-/

namespace Unravel.Unused

/-- The name that a removable node declares. -/
def declaredName? (p : Program) (id : NodeId) : Option NodeId :=
  match p.node id with
  | .function f => if f.kind = .declaration then f.name else none
  | .variableDeclarator target _ => if (p.node target).isIdentifier then some target else none
  | _ => none

/-- Whether nothing but its declaration mentions a name. -/
def isUnused (p : Program) (c : Context) (name : NodeId) : Bool :=
  (p.bindingOf? name).any fun binding =>
    let b := p.binding binding
    b.identifier = name && b.references.isEmpty && b.mutations.isEmpty && !c.isProtected b.name

def removeStep (id : NodeId) : SimplifyM Bool := do
  let p ← SimplifyM.program
  match (declaredName? p id).filter (isUnused p (← SimplifyM.context)) with
  | none => return false
  | some name =>
    let text ← SimplifyM.snippet name
    SimplifyM.remove id
    SimplifyM.record .declarationRemoved id text
    return true

def step (id : NodeId) : SimplifyM Bool := do
  let isFunction := ((← SimplifyM.program).node id).isFunction
  let expanded ←
    if isFunction && (← SimplifyM.context).config.functionInlining then Call.expandNamed id
    else pure false
  let removed ← removeStep id
  return expanded || removed

/-- Visits every declaration once. -/
def sweep : SimplifyM Bool :=
  SimplifyM.visit (fun p id => (declaredName? p id).isSome) step

/-- Sweeps until nothing changes, at most `limit` times. -/
def sweepWithin : Nat → SimplifyM Bool
  | 0 => return false
  | limit + 1 => do
    if (← sweep) then
      discard (sweepWithin limit)
      return true
    else return false

/-- A number of sweeps that only a program reaches whose calls can be expanded without end. -/
def sweepLimit : Nat := 0x100000000

/-- Sweeps until nothing changes. Where no calls are expanded, every sweep but the last one
takes nodes away, so that there are not more of them than nodes. -/
def run : SimplifyM Bool := do
  sweepWithin (max sweepLimit ((← SimplifyM.program).tree.size + 1))

end Unravel.Unused
