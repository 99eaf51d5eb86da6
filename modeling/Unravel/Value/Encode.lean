import Unravel.Source.Name
import Unravel.Tree.Graft
import Unravel.Value.Basic

/-!
Values written as expressions. `undefined`, `NaN` and `Infinity` become the global names, and a
negative number becomes a minus sign before its magnitude.
-/

namespace Unravel

def Tree.encodeNumber (x : Float) : StateM Tree NodeId := do
  if x.isNaN then identifier "NaN"
  else
    let magnitude ←
      if x.isInf then identifier "Infinity"
      else numberLiteral (if Double.isNegative x then -x else x)
    if Double.isNegative x then alloc (.unary .minus magnitude) else return magnitude

def Tree.encodeProperty (key : String) (value : NodeId) : StateM Tree NodeId :=
  if Source.isIdentifierName key then namedProperty key value else quotedProperty key value

namespace Value

mutual

/-- Allocates an expression for the value. -/
def encode : Value → StateM Tree NodeId
  | undefined => Tree.identifier "undefined"
  | null => Tree.alloc (.literal .null)
  | bool b => Tree.alloc (.literal (.boolean b))
  | number x => Tree.encodeNumber x
  | string s => Tree.stringLiteral s
  | array items => do Tree.alloc (.array (← encodeItems items))
  | object entries => do Tree.alloc (.object (← encodeEntries entries))

def encodeItems : List Value → StateM Tree (List NodeId)
  | [] => pure []
  | item :: rest => return (← encode item) :: (← encodeItems rest)

def encodeEntries : List (String × Value) → StateM Tree (List NodeId)
  | [] => pure []
  | (key, value) :: rest => do
    let value ← encode value
    let property ← Tree.encodeProperty key value
    return property :: (← encodeEntries rest)

end

def ofLiteral : Literal → Value
  | .string value _ => string value
  | .number value => number value
  | .boolean value => bool value
  | .null => null

end Value

end Unravel
