import Unravel.Numeral.Places
import Unravel.Text.Blank

/-!
Reading numbers: whole strings as a conversion to a number takes them (`Decimal.ofString`), and
the longest numeral a string starts with (`Decimal.leading`, `Radix.leading`). NaN stands for
what is no number.
-/

namespace Unravel

def nan : Float := 0.0 / 0.0

def infinity : Float := 1.0 / 0.0

namespace Decimal

def isDigit (c : Char) : Bool := '0' ≤ c && c ≤ '9'

/-- The number that decimal digits denote. -/
def natOfDigits (cs : List Char) : Nat :=
  cs.foldl (fun n c => 10 * n + (c.toNat - '0'.toNat)) 0

/-- A sign in front of a numeral. -/
def splitSign : List Char → Bool × List Char
  | '-' :: rest => (true, rest)
  | '+' :: rest => (false, rest)
  | cs => (false, cs)

/-- The digits before the point, the digits after it and what follows them. -/
def splitMantissa (cs : List Char) : List Char × List Char × List Char :=
  let whole := cs.takeWhile isDigit
  match cs.dropWhile isDigit with
  | '.' :: rest => (whole, rest.takeWhile isDigit, rest.dropWhile isDigit)
  | rest => (whole, [], rest)

def splitExponent? : List Char → Option (Int × List Char)
  | c :: rest =>
    if c = 'e' || c = 'E' then
      let (negative, rest) := splitSign rest
      let digits := rest.takeWhile isDigit
      if digits.isEmpty then none
      else
        let n : Int := natOfDigits digits
        some (if negative then -n else n, rest.dropWhile isDigit)
    else none
  | [] => none

/-- The decimal numeral a text starts with, and what follows it: a sign, digits with at most
one point among or beside them, and an exponent. -/
def leading? (cs : List Char) : Option (Float × List Char) :=
  let (negative, rest) := splitSign cs
  let (whole, places, rest) := splitMantissa rest
  if whole.isEmpty && places.isEmpty then none
  else
    let (exponent, rest) := (splitExponent? rest).getD (0, rest)
    let value := toFloat ⟨natOfDigits (whole ++ places), exponent - places.length⟩
    some (Double.negated value negative, rest)

/-- The value of the decimal numeral that a text starts with, blanks aside. -/
def leading (s : String) : Float :=
  let cs := Text.trimStart s.toList
  if "Infinity".toList.isPrefixOf cs || "+Infinity".toList.isPrefixOf cs then infinity
  else if "-Infinity".toList.isPrefixOf cs then -infinity
  else ((leading? cs).map (·.1)).getD nan

end Decimal

namespace Radix

/-- The value of digits in a radix, rounded after every digit; `none` if one is no digit. -/
def value? (radix : Nat) (cs : List Char) : Option Float :=
  cs.foldlM (fun value c => do
    return value * Float.ofNat radix + Float.ofNat (← digitValue? radix c)) 0.0

/-- The radix that a numeral's first two characters announce. -/
def announced? : List Char → Option (Nat × List Char)
  | '0' :: c :: rest =>
    if c = 'x' || c = 'X' then some (16, rest)
    else if c = 'o' || c = 'O' then some (8, rest)
    else if c = 'b' || c = 'B' then some (2, rest)
    else none
  | _ => none

/-- Drops the mark of a hexadecimal numeral. -/
def withoutHexMark? (cs : List Char) : Option (List Char) :=
  match announced? cs with
  | some (16, rest) => some rest
  | _ => none

/-- The value of the integer numeral that a text starts with, blanks aside. Without a radix, or
with radix 0, it is read as decimal; then, and in radix 16, the mark of a hexadecimal numeral
may stand in front. -/
def leading (s : String) (radix? : Option Int) : Float :=
  let (negative, cs) := Decimal.splitSign (Text.trimStart s.toList)
  let radix := radix?.getD 0
  if radix ≠ 0 ∧ (radix < 2 ∨ 36 < radix) then nan
  else
    let (radix, cs) :=
      match withoutHexMark? cs with
      | some rest => if radix = 0 ∨ radix = 16 then (16, rest) else (radix.toNat, cs)
      | none => (if radix = 0 then 10 else radix.toNat, cs)
    let digits := cs.takeWhile fun c => (digitValue? radix c).isSome
    if digits.isEmpty then nan
    else (if negative then -1.0 else 1.0) * (value? radix digits).getD nan

end Radix

namespace Decimal

/-- The number a whole text denotes, blanks around it aside: zero if nothing is left, else an
integer whose mark announces radix 2, 8 or 16, a signed infinity or a decimal numeral. -/
def ofString (s : String) : Float :=
  let cs := Text.trim s.toList
  if cs.isEmpty then 0.0
  else
    match Radix.announced? cs with
    | some (radix, digits) =>
      if digits.isEmpty then nan else (Radix.value? radix digits).getD nan
    | none =>
      if cs = "Infinity".toList || cs = "+Infinity".toList then infinity
      else if cs = "-Infinity".toList then -infinity
      else
        match leading? cs with
        | some (value, []) => value
        | _ => nan

end Decimal

end Unravel
