import Unravel.Numeral.Decimal

/-!
Other spellings of a double: with a fixed number of decimal places, and in another radix.
-/

namespace Unravel

namespace Decimal

/-- How many places an expansion has. No double needs more than 1074. -/
def exactPlaces : Nat := 1100

/-- How often the last place of an expansion fits into a magnitude. -/
def steps (d : Double) : Nat :=
  d.significand * Nat.pow 2 d.exponent.toNat * Nat.pow 10 exactPlaces /
    Nat.pow 2 (-d.exponent).toNat

/-- The decimal digits of a magnitude, those in front of the point and those behind it. -/
def expansion (d : Double) : List Char × List Char :=
  let places := Nat.toDigits 10 (steps d % Nat.pow 10 exactPlaces)
  (Nat.toDigits 10 (steps d / Nat.pow 10 exactPlaces), List.replicate (exactPlaces - places.length)
    '0' ++ places)

/-- The digits of the next number, the last digit first. -/
def increment : List Char → List Char
  | [] => ['1']
  | c :: rest => if c = '9' then '0' :: increment rest else Char.ofNat (c.toNat + 1) :: rest

/-- The digits of an expansion up to so many places. The first digit that is dropped tells whether
they are those of the next number. -/
def kept (whole fraction : List Char) (places : Nat) : List Char :=
  let digits := whole ++ fraction.take places
  if fraction[places]?.any fun c => '5' ≤ c then (increment digits.reverse).reverse else digits

/-- The number with exactly so many decimal places, at most 100. Infinities, NaN and numbers
from 10²¹ on keep their ordinary spelling. A half is rounded away from zero. -/
def fixed? (x : Float) (places : Nat) : Option String :=
  if places > 100 then none
  else if !x.isFinite || x.abs ≥ 1e21 then some (text x)
  else
    let (whole, fraction) := expansion (Double.ofFloat x)
    let digits := kept whole fraction places
    let split := digits.length - places
    let decimals := if places > 0 then '.' :: digits.drop split else []
    let sign := if x < 0.0 then ['-'] else []
    some (String.ofList (sign ++ digits.take split ++ decimals))

end Decimal

namespace Radix

/-- The digit characters up to radix 36, in lower case. -/
def digitChar (digit : Nat) : Char :=
  Char.ofNat (if digit < 10 then '0'.toNat + digit else 'a'.toNat + (digit - 10))

def digitValue? (radix : Nat) (c : Char) : Option Nat :=
  let n := c.toNat
  let value? : Option Nat :=
    if '0'.toNat ≤ n ∧ n ≤ '9'.toNat then some (n - '0'.toNat)
    else if 'a'.toNat ≤ n ∧ n ≤ 'z'.toNat then some (n - 'a'.toNat + 10)
    else if 'A'.toNat ≤ n ∧ n ≤ 'Z'.toNat then some (n - 'A'.toNat + 10)
    else none
  value?.filter (· < radix)

/-- The digits of a positive number, the most significant first, in front of `tail`. A number
of up to `limit` digits is written out in full. -/
def digits (radix : Nat) : Nat → Nat → List Char → List Char
  | 0, _, tail => tail
  | limit + 1, n, tail =>
    if n = 0 then tail else digits radix limit (n / radix) (digitChar (n % radix) :: tail)

/-- The numeral of a natural number below 2⁶⁴ in the given radix. -/
def numeral (radix n : Nat) : String :=
  String.ofList (if n = 0 then ['0'] else digits radix 64 n [])

/-- The spelling of a number in a radix from 2 to 36: every number in radix ten and the
infinities and NaN in all, but otherwise only the integers below 2⁵³. -/
def text? (x : Float) (radix : Nat) : Option String :=
  if radix < 2 || 36 < radix then none
  else if radix = 10 || !x.isFinite then some (Decimal.text x)
  else if Double.hasFraction x || x.abs ≥ 9007199254740992.0 then none
  else
    let n := Double.truncToInt x
    some (if n < 0 then "-" ++ numeral radix n.natAbs else numeral radix n.natAbs)

end Radix

end Unravel
