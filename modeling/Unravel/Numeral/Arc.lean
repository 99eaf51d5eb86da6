import Unravel.Numeral.Polynomial
import Unravel.Numeral.Read

/-!
The inverse circular functions: the angle of a sine, a cosine, a tangent or a point.
-/

namespace Unravel.Double

def quarter : Float := 1.57079632679489655800

def quarterLower : Float := 6.12323399573676603587e-17

/-- What the arc of a sine `x` has beyond `x`, over `x`, in the square of `x`. -/
def arcSlope (z : Float) : Float :=
  z * horner z
      [1.66666666666666657415e-01, -3.25565818622400915405e-01, 2.01212532134862925881e-01,
        -4.00555345006794114027e-02, 7.91534994289814532176e-04, 3.47933107596021167570e-05]
    / horner z
      [1.0, -2.40339491173441421878, 2.02094576023350569471, -6.88283971605453293030e-01,
        7.70381505559019352791e-02]

def arcsin (x : Float) : Float :=
  let a := x.abs
  if !(a ≤ 1.0) then nan
  else if a == 1.0 then x * quarter
  else if a < 1.4901161193847656e-08 then x
  else if a < 0.5 then x + x * arcSlope (x * x)
  else
    let z := (1.0 - a) * 0.5
    let root := z.sqrt
    let slope := arcSlope z
    let arc :=
      if 0.9749999046325684 ≤ a then quarter - (2.0 * (root + root * slope) - quarterLower)
      else
        let upper := upperHalf root
        let lower := (z - upper * upper) / (root + upper)
        0.5 * quarter
          - (2.0 * root * slope - (quarterLower - 2.0 * lower) - (0.5 * quarter - 2.0 * upper))
    negated arc (isNegative x)

def arccos (x : Float) : Float :=
  if !(x.abs ≤ 1.0) then nan
  else if x == 1.0 then 0.0
  else if x.abs < 0.5 then quarter - (x - (quarterLower - x * arcSlope (x * x)))
  else
    let z := (1.0 - x.abs) * 0.5
    let root := z.sqrt
    if isNegative x then 2.0 * (quarter - (root + (arcSlope z * root - quarterLower)))
    else
      let upper := upperHalf root
      let lower := (z - upper * upper) / (root + upper)
      2.0 * (upper + (arcSlope z * root + lower))

def tangentExcess (x : Float) : Float :=
  let z := x * x
  let w := z * z
  let even := z * horner w
    [3.33333333333329318027e-01, 1.42857142725034663711e-01, 9.09088713343650656196e-02,
      6.66107313738753120669e-02, 4.97687799461593236017e-02, 1.62858201153657823623e-02]
  let odd := w * horner w
    [-1.99999999998764832476e-01, -1.11111104054623557880e-01, -7.69187620504482999495e-02,
      -5.83357013379057348645e-02, -3.65315727442169155270e-02]
  x * (even + odd)

def arcFrom (upper lower x : Float) : Float := upper - (tangentExcess x - lower - x)

/-- The arctangent, taken from the nearest of a few arcs whose tangents are simple. -/
def arctan (x : Float) : Float :=
  let a := x.abs
  if a < 7.450580596923828e-09 then x
  else if a < 0.4375 then x - tangentExcess x
  else
    let arc :=
      if a < 0.6875 then
        arcFrom 4.63647609000806093515e-01 2.26987774529616870924e-17
          ((2.0 * a - 1.0) / (2.0 + a))
      else if a < 1.1875 then
        arcFrom 7.85398163397448278999e-01 3.06161699786838301793e-17 ((a - 1.0) / (a + 1.0))
      else if a < 2.4375 then
        arcFrom 9.82793723247329054082e-01 1.39033110312309984516e-17
          ((a - 1.5) / (1.0 + 1.5 * a))
      else arcFrom quarter quarterLower (-1.0 / a)
    negated arc (isNegative x)

/-- The angle of a point, from the axis on which `x` grows. -/
def arctanOf (y x : Float) : Float :=
  if x.isNaN || y.isNaN then nan
  else
    let ratio :=
      if y == 0.0 then 0.0 else if x.isInf && y.isInf then 1.0 else y.abs / x.abs
    let arc := arctan ratio
    if !isNegative x then negated arc (isNegative y)
    else negated (2.0 * quarter - (arc - 2.0 * quarterLower)) (isNegative y)

end Unravel.Double
