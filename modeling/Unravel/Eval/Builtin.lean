import Unravel.Numeral.Function
import Unravel.Value.Basic

/-!
Global functions and the constants and functions of `Math`, `String` and `Number`, on known
arguments. A missing argument counts as `undefined` unless a function says otherwise.
-/

namespace Unravel.Builtin

def first (args : List Value) : Value := args.head?.getD .undefined

def mathConstant? : String → Option Float
  | "PI" => some 3.141592653589793
  | "E" => some 2.718281828459045
  | "LN2" => some 0.6931471805599453
  | "LN10" => some 2.302585092994046
  | "LOG2E" => some 1.4426950408889634
  | "LOG10E" => some 0.4342944819032518
  | "SQRT2" => some 1.4142135623730951
  | "SQRT1_2" => some 0.7071067811865476
  | _ => none

def numberConstant? : String → Option Float
  | "MAX_SAFE_INTEGER" => some 9007199254740991.0
  | "MIN_SAFE_INTEGER" => some (-9007199254740991.0)
  | "EPSILON" => some 2.220446049250313e-16
  | "MAX_VALUE" => some 1.7976931348623157e308
  | "MIN_VALUE" => some 5e-324
  | "POSITIVE_INFINITY" => some infinity
  | "NEGATIVE_INFINITY" => some (-infinity)
  | "NaN" => some nan
  | _ => none

/-- A call of a global function. -/
def global? (name : String) (args : List Value) : Option Value :=
  match name with
  | "String" => some (.string ((args.head?.map Value.toText).getD ""))
  | "Number" => some (.number ((args.head?.map Value.toNumber).getD 0.0))
  | "Boolean" => some (.bool (first args).toBool)
  | "parseInt" =>
    let radix? := (args[1]?.map fun r => r.toInt32.toInt).filter (· ≠ 0)
    some (.number (Radix.leading (first args).toText radix?))
  | "parseFloat" => some (.number (Decimal.leading (first args).toText))
  | "isNaN" => some (.bool (first args).toNumber.isNaN)
  | "isFinite" => some (.bool (first args).toNumber.isFinite)
  | _ => none

def leadingZeros32 (n : UInt32) : Nat := if n = 0 then 32 else 31 - n.toNat.log2

def math? (name : String) (args : List Value) : Option Value :=
  let numbers := args.map Value.toNumber
  let x := numbers.head?.getD nan
  let y := numbers[1]?.getD nan
  let result? : Option Float :=
    match name with
    | "abs" => some x.abs
    | "ceil" => some (Double.ceil x)
    | "floor" => some (Double.floor x)
    | "round" => some (Double.roundHalfUp x)
    | "trunc" => some (Double.trunc x)
    | "sign" => some (Double.sign x)
    | "sqrt" => some x.sqrt
    | "cbrt" => some (Double.cubeRoot x)
    | "exp" => some x.exp
    | "expm1" => some (Double.expMinusOne x)
    | "log" => some x.log
    | "log2" => some x.log2
    | "log10" => some (Double.log10 x)
    | "log1p" => some (Double.logOnePlus x)
    | "sin" => some (Double.sin x)
    | "cos" => some (Double.cos x)
    | "tan" => some (Double.tan x)
    | "asin" => some (Double.arcsin x)
    | "acos" => some (Double.arccos x)
    | "atan" => some (Double.arctan x)
    | "sinh" => some (Double.sinh x)
    | "cosh" => some (Double.cosh x)
    | "tanh" => some (Double.tanh x)
    | "asinh" => some (Double.arsinh x)
    | "acosh" => some (Double.arcosh x)
    | "atanh" => some (Double.artanh x)
    | "atan2" => some (Double.arctanOf x y)
    | "pow" => some (Double.power x y)
    | "fround" => some (Double.toSingle x)
    | "clz32" => some (Float.ofNat (leadingZeros32 (Value.wrap32 x)))
    | "imul" => some (Float.ofInt (Value.wrap32 x * Value.wrap32 y).toInt32.toInt)
    | "hypot" => some (Double.hypotenuse numbers)
    | "max" => Double.maximum? numbers
    | "min" => Double.minimum? numbers
    | _ => none
  result?.map .number

/-- A call of a function of `String`; `none` also where the code units are no string. -/
def string? (name : String) (args : List Value) : Option Value :=
  match name with
  | "fromCharCode" => (Text.ofUnits? (args.map fun a => a.toUInt32.toUInt16)).map .string
  | _ => none

/-- A call of a function of `Number`. The tests hold of numbers only, without conversion. -/
def number? (name : String) (args : List Value) : Option Value :=
  let holds (p : Float → Bool) : Option Value :=
    some (.bool (((first args).asNumber?.map p).getD false))
  match name with
  | "isInteger" => holds Double.isIntegral
  | "isNaN" => holds Float.isNaN
  | "isFinite" => holds Float.isFinite
  | "parseInt" | "parseFloat" => global? name args
  | _ => none

end Unravel.Builtin
