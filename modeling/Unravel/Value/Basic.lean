import Unravel.Numeral.Read
import Unravel.Text.Units

/-!
The values an expression can be known to have, and their conversions to truth values, numbers
and strings.
-/

namespace Unravel

/-- A known value. The entries of an object stand in the order of insertion. -/
inductive Value where
  | undefined
  | null
  | bool (value : Bool)
  | number (value : Float)
  | string (value : String)
  | array (items : List Value)
  | object (entries : List (String × Value))
deriving Inhabited

namespace Value

/-- What `typeof` says of the value. -/
def typeName : Value → String
  | undefined => "undefined"
  | null | array _ | object _ => "object"
  | bool _ => "boolean"
  | number _ => "number"
  | string _ => "string"

def isNullish : Value → Bool
  | undefined | null => true
  | _ => false

def isPrimitive : Value → Bool
  | array _ | object _ => false
  | _ => true

def isUndefined : Value → Bool
  | undefined => true
  | _ => false

def asString? : Value → Option String
  | string s => some s
  | _ => none

def asNumber? : Value → Option Float
  | number x => some x
  | _ => none

def asArray? : Value → Option (List Value)
  | array items => some items
  | _ => none

def boolText (b : Bool) : String := if b then "true" else "false"

mutual

def toText : Value → String
  | undefined => "undefined"
  | null => "null"
  | bool b => boolText b
  | number x => Decimal.text x
  | string s => s
  | array items => ",".intercalate (itemTexts items)
  | object _ => "[object Object]"

/-- The texts of array elements, in which `undefined` and `null` leave no trace. -/
def itemTexts : List Value → List String
  | [] => []
  | item :: rest => (if item.isNullish then "" else item.toText) :: itemTexts rest

end

def toBool : Value → Bool
  | undefined | null => false
  | bool b => b
  | number x => !(x == 0.0) && !x.isNaN
  | string s => !s.isEmpty
  | array _ | object _ => true

/-- The number a value converts to; arrays and objects convert through their text. -/
def toNumber : Value → Float
  | undefined => nan
  | null => 0.0
  | bool b => if b then 1.0 else 0.0
  | number x => x
  | string s => Decimal.ofString s
  | composite => Decimal.ofString composite.toText

def toPrimitive : Value → Value
  | array items => string (array items).toText
  | object entries => string (object entries).toText
  | value => value

/-- A double modulo 2³², its fraction dropped; infinities and NaN give zero. -/
def wrap32 (x : Float) : UInt32 :=
  if x.isFinite then .ofNat (Double.truncToInt x % 0x100000000).toNat else 0

def toUInt32 (v : Value) : UInt32 := wrap32 v.toNumber

def toInt32 (v : Value) : Int32 := v.toUInt32.toInt32

/-- A number without its fraction; NaN counts as zero. -/
def toInteger (v : Value) : Float :=
  let x := v.toNumber
  if x.isNaN then 0.0 else Double.trunc x

mutual

/-- Equality part by part: numbers by value, so that NaN differs from itself and the two zeros
are equal, and object entries in their order. -/
def same : Value → Value → Bool
  | undefined, undefined | null, null => true
  | bool x, bool y => x = y
  | number x, number y => x == y
  | string x, string y => x = y
  | array xs, array ys => sameItems xs ys
  | object xs, object ys => sameEntries xs ys
  | _, _ => false

def sameItems : List Value → List Value → Bool
  | [], [] => true
  | x :: xs, y :: ys => same x y && sameItems xs ys
  | _, _ => false

def sameEntries : List (String × Value) → List (String × Value) → Bool
  | [], [] => true
  | (k, x) :: xs, (l, y) :: ys => k = l && same x y && sameEntries xs ys
  | _, _ => false

end

end Value

end Unravel
