import Unravel.Numeral.Fine
import Unravel.Numeral.Polynomial
import Unravel.Numeral.Read

/-!
The circular functions. An angle is a number of quarter turns and a rest of at most about half a
quarter turn; the rest is taken exactly and given as the sum of two doubles.
-/

namespace Unravel.Double

/-- A number of quarter turns, and what an angle has beyond them, with the part of it that
rounding takes away. -/
structure Angle where
  turns : Int
  rest : Float
  lost : Float

/-- Just above one eighth of a turn, below which an angle is not reduced. -/
def eighthTurn : Float := 0.7853984832763672

def oddEighths : List Float :=
  [eighthTurn, 2.3561954498291016, 3.926992416381836, 5.497791290283203, 7.0685882568359375]

/-- The number of quarter turns nearest to a positive angle, also given in fine units. Little
beyond an odd multiple of an eighth of a turn, up to the fifth, the next lower one is taken. -/
def nearestTurns (a : Float) (n : Int) : Int :=
  if a < 7.0685882568359375 then oddEighths.countP (· ≤ a)
  else (2 * n + Fine.quarterTurn) / (2 * Fine.quarterTurn)

namespace Angle

def ofRadians (x : Float) : Angle :=
  let n := Fine.ofDouble (ofFloat x.abs)
  let turns := nearestTurns x.abs n
  let rest := n - turns * Fine.quarterTurn
  let rounded := Fine.nearest rest
  let lost := Fine.nearest (rest - Fine.ofDouble (ofFloat rounded))
  if isNegative x then ⟨-turns, -rounded, -lost⟩ else ⟨turns, rounded, lost⟩

/-- What the series of the sine has beyond its second term, over the fifth power. -/
def sineTail (z : Float) : Float :=
  horner z [8.33333333332248946124e-03, -1.98412698298579493134e-04, 2.75573137070700676789e-06]
    + z * (z * z) * horner z [-2.50507602534068634195e-08, 1.58969099521155010221e-10]

/-- The second coefficient of the sine. -/
def sineCubic : Float := -1.66666666666666324348e-01

/-- The sine of a small number. -/
def sineNear (x : Float) : Float :=
  let z := x * x
  x + z * x * (sineCubic + z * sineTail z)

def restSine (a : Angle) : Float :=
  let x := a.rest
  let y := a.lost
  let z := x * x
  let cube := z * x
  x - ((z * (0.5 * y - cube * sineTail z) - y) - cube * sineCubic)

def restCosine (a : Angle) : Float :=
  let x := a.rest
  let z := x * x
  let square := z * z
  let tail :=
    z * horner z [4.16666666666666019037e-02, -1.38888888888741095749e-03,
        2.48015872894767294178e-05]
      + square * square * horner z [-2.75573143513906633035e-07, 2.08757232129817482790e-09,
        -1.13596475577881948265e-11]
  let half := 0.5 * z
  let w := 1.0 - half
  w + (((1.0 - w) - half) + (z * tail - x * a.lost))

/-- What the tangent of a small number has beyond it. -/
def tangentTail (x lost : Float) : Float :=
  let z := x * x
  let w := z * z
  let odd := horner w
    [1.33333333333201242699e-01, 2.18694882948595424599e-02, 3.59207910759131235356e-03,
      5.88041240820264096874e-04, 7.81794442939557092300e-05, -1.85586374855275456654e-05]
  let even := z * horner w
    [5.39682539762260521377e-02, 8.86323982359930005737e-03, 1.45620945432529025516e-03,
      2.46463134818469906812e-04, 7.14072491382608190305e-05, 2.59073051863633712884e-05]
  let cube := z * x
  lost + z * (cube * (odd + even) + lost) + cube * 3.33333333333334091986e-01

def negatedInverse (x tail : Float) : Float :=
  let sum := x + tail
  let upper := upperHalf sum
  let lower := tail - (upper - x)
  let inverse := -1.0 / sum
  let rough := upperHalf inverse
  rough + inverse * (1.0 + rough * upper + rough * lower)

/-- The tangent of an angle. Where its rest is near an eighth of a turn, the distance from there
is taken in its place. -/
def tangent (a : Angle) : Float :=
  let isOdd : Bool := a.turns % 2 = 1
  if a.rest.abs < 0.6743354797363281 then
    let tail := tangentTail a.rest a.lost
    if isOdd then negatedInverse a.rest tail else a.rest + tail
  else
    let isBelow := isNegative a.rest
    let distance := (7.85398163397448278999e-01 - negated a.rest isBelow)
      + (3.06161699786838301793e-17 - negated a.lost isBelow)
    let tail := tangentTail distance 0.0
    let sum := distance + tail
    let one := if isOdd then -1.0 else 1.0
    negated (one - 2.0 * (distance + (tail - sum * sum / (sum + one)))) isBelow

def sine (a : Angle) (further : Int) : Float :=
  let turns := (a.turns + further) % 4
  let magnitude := if turns % 2 = 0 then a.restSine else a.restCosine
  negated magnitude (2 ≤ turns)

end Angle

def sin (x : Float) : Float :=
  if x.abs < 1.4901161193847656e-08 then x
  else if x.abs < eighthTurn then Angle.sineNear x
  else if x.isFinite then (Angle.ofRadians x).sine 0
  else nan

def cos (x : Float) : Float :=
  if x.abs < eighthTurn then Angle.restCosine ⟨0, x, 0.0⟩
  else if x.isFinite then (Angle.ofRadians x).sine 1
  else nan

def tan (x : Float) : Float :=
  if x.abs < 7.450580596923828e-09 then x
  else if x.abs < eighthTurn then Angle.tangent ⟨0, x, 0.0⟩
  else if x.isFinite then (Angle.ofRadians x).tangent
  else nan

end Unravel.Double
