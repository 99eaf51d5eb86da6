import Unravel.Numeral.Polynomial
import Unravel.Numeral.Read

/-!
Logarithms of numbers near one, the decimal logarithm, and the inverse hyperbolic functions.
-/

namespace Unravel.Double

/-- The binary exponent of a positive normal number and what remains of the number, which lies
between the roots of a half and of two. -/
def splitAtRoot (x : Float) : Int × Float :=
  let bits := x.toBits + 0x0009_5f62_0000_0000
  ((bits >>> 52).toNat - 1023,
    Float.ofBits ((bits &&& 0x000f_ffff_ffff_ffff) + 0x3fe6_a09e_0000_0000))

def logRest (f : Float) : Float :=
  let s := f / (2.0 + f)
  let z := s * s
  let w := z * z
  let odd := w * horner w
    [3.999999999940941908e-01, 2.222219843214978396e-01, 1.531383769920937332e-01]
  let even := z * horner w
    [6.666666666666735130e-01, 2.857142874366239149e-01, 1.818357216161805012e-01,
      1.479819860511658591e-01]
  s * (0.5 * f * f + (even + odd))

/-- `ln (1 + x)`, exact to the last place but one also near zero. -/
def logOnePlus (x : Float) : Float :=
  if x < -1.0 then nan
  else if x == -1.0 then -infinity
  else if !x.isFinite || x.abs < 1.1102230246251565e-16 then x
  else
    let near : Bool := -0.292893648147583 < x && x < 0.4142136573791504
    let u := 1.0 + x
    let (k, m) := if near then (0, 1.0) else splitAtRoot u
    let f := if near then x else m - 1.0
    let lost :=
      if near || 54 ≤ k then 0.0
      else (if 2 ≤ k then 1.0 - (u - x) else x - (u - 1.0)) / u
    let k := Float.ofInt k
    logRest f + (k * logTwoLower + lost) - 0.5 * f * f + f + k * logTwoUpper

/-- The decimal logarithm of a positive normal number, the exponent corrected by `shift`. -/
def log10Normal (x : Float) (shift : Int) : Float :=
  let (k, m) := splitAtRoot x
  let f := m - 1.0
  let square := 0.5 * f * f
  let upper := upperHalf (f - square)
  let lower := f - upper - square + logRest f
  let k := Float.ofInt (k + shift)
  let whole := k * 3.01029995663611771306e-01
  let part := upper * 4.34294481878168880939e-01
  let rest := k * 3.69423907715893078616e-13 + (lower + upper) * 2.50829467116452752298e-11
    + lower * 4.34294481878168880939e-01
  let sum := whole + part
  (rest + ((whole - sum) + part)) + sum

def log10 (x : Float) : Float :=
  if x == 0.0 then -infinity
  else if x < 0.0 then nan
  else if !x.isFinite || x == 1.0 then if x == 1.0 then 0.0 else x
  else if x < 2.2250738585072014e-308 then log10Normal (x * 1.8014398509481984e+16) (-54)
  else log10Normal x 0

/-- The logarithm of twice a number that may be too great to be doubled. -/
def logTwice (x : Float) : Float := x.log + 0.693147180559945309417232121458176568

/-- From here on the square of a number is the same with one more or less. -/
def squareLimit : Float := 67108864.0

/-- The inverse hyperbolic sine. -/
def arsinh (x : Float) : Float :=
  let a := x.abs
  let root := (a * a + 1.0).sqrt
  let result :=
    if a < 1.4901161193847656e-08 then a
    else if a < 2.0 then logOnePlus (a + a * a / (root + 1.0))
    else if a < squareLimit then (2.0 * a + 1.0 / (root + a)).log
    else logTwice a
  negated result (isNegative x)

/-- The inverse hyperbolic cosine. -/
def arcosh (x : Float) : Float :=
  if x < 1.0 then nan
  else if x < 2.0 then
    let t := x - 1.0
    logOnePlus (t + (t * t + 2.0 * t).sqrt)
  else if x < squareLimit then (2.0 * x - 1.0 / (x + (x * x - 1.0).sqrt)).log
  else logTwice x

/-- The inverse hyperbolic tangent. -/
def artanh (x : Float) : Float := 0.5 * logOnePlus (2.0 * x / (1.0 - x))

end Unravel.Double
