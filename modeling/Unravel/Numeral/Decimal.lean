import Unravel.Numeral.Double

/-!
Decimal numerals of doubles.

* `Decimal.shortest` has the fewest digits that still read back as the double, and of two such
  numerals the nearer one.
* `Decimal.text` is its spelling: positional from 10⁻⁶ up to 10²¹, with an exponent beyond.
* `Decimal.toFloat` is the double nearest to a decimal numeral.
-/

namespace Unravel

/-- The number `digits · 10 ^ exponent`. -/
structure Decimal where
  digits : Nat
  exponent : Int
deriving DecidableEq, Inhabited

namespace Decimal

/-- The reals that round to a double, in quarters of its unit `2 ^ exponent`. The ends belong
to the interval exactly when the significand is even. -/
structure Basin where
  lower : Nat
  center : Nat
  upper : Nat
  closed : Bool
  exponent : Int

/-- The interval that rounds to a positive double. Below a power of two the neighbour is only
half as far away. -/
def Basin.ofDouble (d : Double) : Basin :=
  let quarter := 4 * d.significand
  let narrow := d.significand = Double.leadingBit && d.exponent > -1074
  ⟨if narrow then quarter - 1 else quarter - 2, quarter, quarter + 2,
    d.significand % 2 = 0, d.exponent⟩

/-- How a quarter unit compares with a grid of decimals: `quarters · scale` and
`4 · c · grid` are the same length when `c` steps of the grid make so many quarters. -/
def Basin.scale (b : Basin) (i : Int) : Nat × Nat :=
  (Nat.pow 2 b.exponent.toNat * Nat.pow 10 (-i).toNat,
    Nat.pow 2 (-b.exponent).toNat * Nat.pow 10 i.toNat)

def Basin.contains (b : Basin) (i : Int) (c : Nat) : Bool :=
  let (scale, grid) := b.scale i
  let x := 4 * c * grid
  let low := b.lower * scale
  let high := b.upper * scale
  if b.closed then low ≤ x && x ≤ high else low < x && x < high

/-- The nearest multiple of `10 ^ i` that rounds to the double, the greater of two equally
near ones. -/
def Basin.nearest? (b : Basin) (i : Int) : Option Nat :=
  let (scale, grid) := b.scale i
  let below := b.center * scale / (4 * grid)
  let above := below + 1
  match 0 < below && b.contains i below, b.contains i above with
  | true, true =>
    let value := b.center * scale
    if value - 4 * below * grid < 4 * above * grid - value then some below else some above
  | true, false => some below
  | false, true => some above
  | false, false => none

/-- Looks for the coarsest grid with a hit, starting at `10 ^ i`. -/
def Basin.search (b : Basin) : Nat → Int → Decimal
  | 0, i => ⟨0, i⟩
  | limit + 1, i =>
    match b.nearest? i with
    | some c => ⟨c, i⟩
    | none => b.search limit (i - 1)

/-- The shortest decimal that reads back as a positive double. Seventeen digits always do, so
the search from above the double's magnitude needs no more than twenty grids. -/
def shortest (d : Double) : Decimal :=
  let top : Int := (d.exponent + d.significand.log2) * 1233 / 4096 + 2
  (Basin.ofDouble d).search 24 top

/-- Zeros before a numeral's digits or after them. -/
def zeros (n : Nat) : String := String.ofList (List.replicate n '0')

def positional (d : Decimal) : String :=
  let text := toString d.digits
  if 0 ≤ d.exponent then text ++ zeros d.exponent.toNat
  else
    let places := d.exponent.natAbs
    let padded := (zeros (places + 1 - text.length) ++ text).toList
    String.ofList (padded.take (padded.length - places)) ++ "."
      ++ String.ofList (padded.drop (padded.length - places))

/-- Spelling with one digit before the point and a signed exponent. -/
def scientific (d : Decimal) : String :=
  let digits := (toString d.digits).toList
  let power := d.exponent + digits.length - 1
  let mantissa := match digits with
    | [] => ""
    | [c] => String.ofList [c]
    | c :: rest => String.ofList (c :: '.' :: rest)
  mantissa ++ (if power < 0 then "e-" else "e+") ++ toString power.natAbs

def text (x : Float) : String :=
  if x.isNaN then "NaN"
  else if x == 0.0 then "0"
  else if x.isInf then (if x > 0.0 then "Infinity" else "-Infinity")
  else
    let d := shortest (Double.ofFloat x)
    let magnitude := x.abs
    let spelled :=
      if magnitude ≥ 1e21 || magnitude < 1e-6 then d.scientific else d.positional
    if Double.isNegative x then "-" ++ spelled else spelled

/-- The double nearest to the number. Beyond 10³¹⁰ that is infinity and below 10⁻⁴⁰⁰ zero,
whatever the digits are. -/
def toFloat (d : Decimal) : Float :=
  let power := d.exponent + (toString d.digits).length
  if d.digits = 0 || power < -400 then 0.0
  else if power > 310 then 1.0 / 0.0
  else Float.ofScientific d.digits (d.exponent < 0) d.exponent.natAbs

end Decimal

end Unravel
