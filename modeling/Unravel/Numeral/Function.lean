import Unravel.Numeral.Angle
import Unravel.Numeral.Arc
import Unravel.Numeral.Exponential
import Unravel.Numeral.Logarithm

/-!
Functions on doubles that the floating-point unit does not offer, and those whose results at
zeros, infinities and NaN differ from it.
-/

namespace Unravel.Double

def power (base exponent : Float) : Float :=
  if exponent.isNaN || (base.abs == 1.0 && exponent.isInf) then nan
  else base.pow exponent

/-- The nearest integer, a half going up; the sign of a zero is that of the argument. -/
def roundHalfUp (x : Float) : Float :=
  if !x.isFinite then x
  else
    let below := floor x
    let rounded := if x - below ≥ 0.5 then below + 1.0 else below
    if rounded == 0.0 then negated 0.0 (isNegative x) else rounded

def sign (x : Float) : Float :=
  if x.isNaN || x == 0.0 then x else if x > 0.0 then 1.0 else -1.0

/-- A number whose bits, seen as an integer, are about a third of those of a positive one. It
agrees with the cube root in about five bits. -/
def roughCubeRoot (a : Float) : Float :=
  let third (x : Float) (bias : UInt64) : Float :=
    Float.ofBits (((x.toBits >>> 32) / 3 + bias) <<< 32)
  if a < 2.2250738585072014e-308 then third (a * 1.8014398509481984e+16) 696219795
  else third a 715094163

/-- The cube root: a rough one, made better by a polynomial, rounded to 23 bits and made better once
more by a step of Newton's method. -/
def cubeRoot (x : Float) : Float :=
  if !x.isFinite || x == 0.0 then x
  else
    let a := x.abs
    let t := roughCubeRoot a
    let r := t * t * (t / a)
    let t := t * (horner r [1.87595182427177009643, -1.88497979543377169875,
        1.621429720105354466140]
      + r * r * r * horner r [-0.758397934778766047437, 0.145996192886612446982])
    let t := Float.ofBits ((t.toBits + 0x80000000) &&& 0xffffffffc0000000)
    let r := a / (t * t)
    let r := (r - t) / (t + t + r)
    negated (t + t * r) (isNegative x)

/-- The nearest single-precision number. -/
def toSingle (x : Float) : Float := x.toFloat32.toFloat

/-- The root of the sum of squares; infinite if any number is. The empty sum is negative
zero. -/
def hypotenuse (xs : List Float) : Float :=
  if xs.any Float.isInf then infinity
  else (xs.foldl (fun sum x => sum + x * x) (-0.0)).sqrt

/-- The greatest of the numbers and negative infinity, the last of equal ones; none if NaN is
among them. -/
def maximum? (xs : List Float) : Option Float :=
  if xs.any Float.isNaN then none
  else some (xs.foldl (fun best x => if best > x then best else x) (-infinity))

/-- The least of the numbers and infinity, the last of equal ones; none if NaN is among
them. -/
def minimum? (xs : List Float) : Option Float :=
  if xs.any Float.isNaN then none
  else some (xs.foldl (fun best x => if best < x then best else x) infinity)

end Unravel.Double
