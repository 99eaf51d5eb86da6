import Unravel.Numeral.Double
import Unravel.Simplify.Basic
import Unravel.Simplify.Shape

/-!
Reads of arrays: where an array literal is only ever read at number literals and for its length,
each read of a literal element becomes that element.
-/

namespace Unravel.ArrayRead

/-- How a name of an array is used. -/
inductive Access where
  | index (position : Float)
  | length

/-- The access that an identifier is part of; `none` if it is used in any other way. -/
def access? (p : Program) (reference : NodeId) : Option Access := do
  let member ← p.tree.parent? reference
  match p.node member with
  | .member base key computed =>
    if base ≠ reference || p.tree.isWriteTarget member then none
    else if computed then
      match p.node key with
      | .literal (.number position) => some (.index position)
      | _ => none
    else if p.tree.memberName? member = some "length" then some .length
    else none
  | _ => none

def elementAt? (elements : List NodeId) (position : Float) : Option NodeId :=
  if !Double.isIntegral position || position < 0.0 then none
  else elements[(Double.truncToInt position).toNat]?

/-- The element that a use of the array reads, if that can take its place. -/
def readAt? (p : Program) (elements : List NodeId) (reference : NodeId) :
    Option (NodeId × NodeId) :=
  match access? p reference with
  | some (.index position) => do
    let element ← elementAt? elements position
    let member ← p.tree.parent? reference
    if p.tree.isLiteralValue element then some (member, element) else none
  | _ => none

/-- The reads of an array that can be replaced, with the elements they read. -/
def plan (p : Program) (c : Context) (binding : BindingId) : List (NodeId × NodeId) :=
  let b := p.binding binding
  match p.initialized? binding with
  | none => []
  | some (declarator, init) =>
    match p.node init with
    | .array elements =>
      if p.isConstantVariable binding && !c.isProtected b.name
        && b.references.all (fun use =>
          p.tree.precedes declarator use && (access? p use).isSome) then
        b.references.filterMap (readAt? p elements)
      else []
    | _ => []

def isArrayDeclarator (p : Program) (id : NodeId) : Bool :=
  match p.node id with
  | .variableDeclarator _ (some init) =>
    match p.node init with
    | .array _ => true
    | _ => false
  | _ => false

def replaceRead (member element : NodeId) : SimplifyM Bool := do
  let copy ← SimplifyM.build (Tree.copy element)
  SimplifyM.replaceAndRecord .arrayIndexInlined "" member copy
  return true

def step (declarator : NodeId) : SimplifyM Bool := do
  let p ← SimplifyM.program
  match p.node declarator with
  | .variableDeclarator target _ =>
    match p.bindingOf? target with
    | none => return false
    | some binding =>
      SimplifyM.anyChange (plan p (← SimplifyM.context) binding) fun (member, element) =>
        SimplifyM.ifAttached member (replaceRead member element)
  | _ => return false

def run : SimplifyM Bool := SimplifyM.visit isArrayDeclarator step

end Unravel.ArrayRead
