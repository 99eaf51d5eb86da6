import Unravel.Numeral.Polynomial
import Unravel.Numeral.Read

/-!
The exponential less one and the hyperbolic functions, which are built on it.
-/

namespace Unravel.Double

/-- A number less the nearest multiple of the logarithm of two: the factor, the difference and
what rounding took from it. -/
structure LogReduced where
  factor : Int
  value : Float
  lost : Float

/-- The reduced form of a number from half the logarithm of two on. -/
def LogReduced.ofFloat (x : Float) : LogReduced :=
  let factor : Int :=
    if x.abs < 1.0397205352783203 then if isNegative x then -1 else 1
    else truncToInt (1.44269504088896338700 * x + (if isNegative x then -0.5 else 0.5))
  let k := Float.ofInt factor
  let upper := x - k * logTwoUpper
  let lower := k * logTwoLower
  let value := upper - lower
  ⟨factor, value, (upper - value) - lower⟩

def expCoefficients : List Float :=
  [1.0, -3.33333333333331316428e-02, 1.58730158725481460165e-03, -7.93650757867487942473e-05,
    4.00821782732936239552e-06, -2.01099218183624371326e-07]

def expParts (x : Float) : Float × Float :=
  let half := 0.5 * x
  let square := x * half
  let r := horner square expCoefficients
  let t := 3.0 - r * half
  (square, square * ((r - t) / (6.0 - x * t)))

/-- The exponential less one of a reduced number. -/
def LogReduced.expMinusOne (r : LogReduced) : Float :=
  let x := r.value
  let k := r.factor
  let (square, parts) := expParts x
  let e := (x * (parts - r.lost) - r.lost) - square
  if k = -1 then 0.5 * (x - e) - 0.5
  else if k = 1 then
    if x < -0.25 then -2.0 * (e - (x + 0.5)) else 1.0 + 2.0 * (x - e)
  else if k < 0 || 56 < k then (x - e + 1.0) * 2.0 * powerOfTwo (k - 1) - 1.0
  else if k < 20 then (x - e + (1.0 - powerOfTwo (-k))) * powerOfTwo k
  else (x - (e + powerOfTwo (-k)) + 1.0) * powerOfTwo k

/-- `eˣ - 1`, exact to the last place but one also near zero. -/
def expMinusOne (x : Float) : Float :=
  let a := x.abs
  if x.isNaN || a < 5.551115123125783e-17 then x
  else if a < 0.3465735912322998 then
    let (square, parts) := expParts x
    x - (x * parts - square)
  else if x ≤ -38.81622314453125 then -1.0
  else if x > 7.09782712893383973096e+02 then infinity
  else (LogReduced.ofFloat x).expMinusOne

/-- Half the exponential of a number from which on the exponential itself may overflow. -/
def halfExp (a : Float) : Float :=
  let scale := powerOfTwo 1021
  (a - 1416.0996898839683).exp * scale * scale

/-- From here on the exponential may overflow. -/
def expLimit : Float := 709.7822265625

def sinh (x : Float) : Float :=
  let a := x.abs
  let half := negated 0.5 (isNegative x)
  if a < 1.4901161193847656e-08 then x
  else if a < expLimit then
    let t := expMinusOne a
    if a < 1.0 then half * (2.0 * t - t * t / (t + 1.0)) else half * (t + t / (t + 1.0))
  else negated (halfExp a) (isNegative x)

def cosh (x : Float) : Float :=
  let a := x.abs
  if a < 0.6931467056274414 then
    let t := expMinusOne a
    1.0 + t * t / (2.0 * (1.0 + t))
  else if a < expLimit then
    let t := a.exp
    0.5 * (t + 1.0 / t)
  else halfExp a

def tanh (x : Float) : Float :=
  let a := x.abs
  let t :=
    if a < 0.2554128170013428 then
      let t := expMinusOne (-2.0 * a)
      (-t) / (t + 2.0)
    else if a < 0.5493063926696777 then
      let t := expMinusOne (2.0 * a)
      t / (t + 2.0)
    else 1.0 - 2.0 / (expMinusOne (2.0 * a) + 2.0)
  negated t (isNegative x)

end Unravel.Double
