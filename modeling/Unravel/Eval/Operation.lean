import Unravel.Numeral.Function
import Unravel.Syntax.Operator
import Unravel.Value.Compare

/-!
The operators on known values.
-/

namespace Unravel

open Value

def UnaryOp.result? (operator : UnaryOp) (v : Value) : Option Value :=
  match operator with
  | .not => some (bool !v.toBool)
  | .minus => some (number (-v.toNumber))
  | .plus => some (number v.toNumber)
  | .bitNot => some (number (Float.ofInt (~~~v.toInt32).toInt))
  | .typeOf => some (string v.typeName)
  | .void => some undefined
  | .delete => none

/-- The sum of two values: strings are joined, all else is added as numbers. -/
def Value.add (x y : Value) : Value :=
  match x.toPrimitive, y.toPrimitive with
  | string s, b => string (s ++ b.toText)
  | a, string t => string (a.toText ++ t)
  | a, b => number (a.toNumber + b.toNumber)

/-- The result of an operator. Shifts count modulo 32, and nothing is known of the operators
that look into an object. -/
def BinaryOp.result? (operator : BinaryOp) (x y : Value) : Option Value :=
  let numeric (f : Float → Float → Float) : Option Value :=
    some (number (f x.toNumber y.toNumber))
  let signed (n : Int32) : Option Value := some (number (Float.ofInt n.toInt))
  let unsigned (n : UInt32) : Option Value := some (number (Float.ofNat n.toNat))
  let distance := y.toUInt32 % 32
  match operator with
  | .add => some (x.add y)
  | .sub => numeric (· - ·)
  | .mul => numeric (· * ·)
  | .div => numeric (· / ·)
  | .rem => numeric Double.rem
  | .exp => numeric Double.power
  | .bitAnd => signed (x.toInt32 &&& y.toInt32)
  | .bitOr => signed (x.toInt32 ||| y.toInt32)
  | .bitXor => signed (x.toInt32 ^^^ y.toInt32)
  | .shl => signed (x.toUInt32 <<< distance).toInt32
  | .shr => signed (x.toInt32 >>> distance.toInt32)
  | .ushr => unsigned (x.toUInt32 >>> distance)
  | .eq => (looseEquals? x y).map bool
  | .notEq => (looseEquals? x y).map fun b => bool !b
  | .strictEq => (strictEquals? x y).map bool
  | .strictNotEq => (strictEquals? x y).map fun b => bool !b
  | .lt => some (bool (lessThan? x y = some true))
  | .gt => some (bool (lessThan? y x = some true))
  | .ltEq => some (bool (lessThan? y x = some false))
  | .gtEq => some (bool (lessThan? x y = some false))
  | .isIn | .instanceOf => none

def LogicalOp.keepsLeft (operator : LogicalOp) (v : Value) : Bool :=
  match operator with
  | .and => !v.toBool
  | .or => v.toBool
  | .nullish => !v.isNullish

end Unravel
