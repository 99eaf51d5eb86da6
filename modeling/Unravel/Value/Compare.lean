import Unravel.Value.Basic

/-!
Comparison of values. There is no answer where the identity of an array or object would decide,
and none for the order of NaN.
-/

namespace Unravel.Value

/-- Equality without conversion, `===`. -/
def strictEquals? : Value → Value → Option Bool
  | undefined, undefined | null, null => some true
  | bool x, bool y => some (x = y)
  | number x, number y => some (x == y)
  | string x, string y => some (x = y)
  | array _, array _ | array _, object _ | object _, array _ | object _, object _ => none
  | _, _ => some false

def primitivesEqual (x y : Value) : Bool :=
  match x, y with
  | string s, string t => s = t
  | _, _ =>
    if x.isNullish || y.isNullish then x.isNullish && y.isNullish
    else x.toNumber == y.toNumber

def looseEquals? (x y : Value) : Option Bool :=
  if x.isPrimitive || y.isPrimitive then
    if x.isNullish || y.isNullish then some (x.isNullish && y.isNullish)
    else some (primitivesEqual x.toPrimitive y.toPrimitive)
  else none

/-- Order of two values, strings among themselves by code units and all else as numbers; no
answer if one of those is NaN. -/
def lessThan? (x y : Value) : Option Bool :=
  match x.toPrimitive, y.toPrimitive with
  | string s, string t => some (Text.unitsLess (Text.units s) (Text.units t))
  | a, b =>
    if a.toNumber.isNaN || b.toNumber.isNaN then none else some (a.toNumber < b.toNumber)

end Unravel.Value
