/-!
Finite doubles as exact numbers: a sign, a natural significand and a power of two. Rounding to
integers and remainders are taken on this form, so they involve no rounding of their own.
-/

namespace Unravel

/-- The number `± significand · 2 ^ exponent`. -/
structure Double where
  negative : Bool
  significand : Nat
  exponent : Int
deriving DecidableEq, Inhabited

namespace Double

/-- The value of the leading bit of a normal significand, two to the power of 52. -/
def leadingBit : Nat := 0x10000000000000

def signBit : Nat := 0x8000000000000000

/-- The exact value of a finite double, by its bits. -/
def ofFloat (x : Float) : Double :=
  let bits := x.toBits.toNat
  let field : Nat := bits / leadingBit % 0x800
  let rest : Nat := bits % leadingBit
  let negative : Bool := bits / signBit = 1
  if field = 0 then ⟨negative, rest, -1074⟩
  else ⟨negative, rest + leadingBit, (field : Int) - 1075⟩

/-- Multiplies by a power of two, dropping what falls below the unit. -/
def shift (n : Nat) (k : Int) : Nat := if k < 0 then n >>> k.natAbs else n <<< k.natAbs

/-- The double with the given value, where there is one. Digits that no double has room for
are dropped. -/
def toFloat (d : Double) : Float :=
  let magnitude :=
    if d.significand = 0 then 0
    else
      let exponent := max (d.exponent + d.significand.log2 - 52) (-1074)
      let significand := shift d.significand (d.exponent - exponent)
      if significand < leadingBit then significand
      else (exponent + 1075).toNat * leadingBit + (significand - leadingBit)
  Float.ofBits (.ofNat (if d.negative then magnitude + signBit else magnitude))

def isNegative (x : Float) : Bool := x.toBits.toNat / signBit = 1

def negated (x : Float) (negative : Bool) : Float := if negative then -x else x

/-- The integer next to a finite double on the side of zero. -/
def truncToInt (x : Float) : Int :=
  let d := ofFloat x
  let n : Int := shift d.significand d.exponent
  if d.negative then -n else n

/-- Whether a finite double has a fractional part. -/
def hasFraction (x : Float) : Bool :=
  let d := ofFloat x
  d.exponent < 0 && d.significand % Nat.pow 2 d.exponent.natAbs ≠ 0

def withSignOf (x : Float) (n : Nat) : Float := negated (Float.ofNat n) (isNegative x)

/-- Rounds toward zero; zeros and the values without a fraction are kept. -/
def trunc (x : Float) : Float :=
  if x.isFinite && hasFraction x then withSignOf x (truncToInt x).natAbs else x

/-- The part that `trunc` takes away. -/
def fraction (x : Float) : Float := x - trunc x

/-- Whether the value is a finite number without a fraction. -/
def isIntegral (x : Float) : Bool := x.isFinite && !hasFraction x

def floor (x : Float) : Float :=
  if x.isFinite && hasFraction x && isNegative x then trunc x - 1 else trunc x

def ceil (x : Float) : Float :=
  if x.isFinite && hasFraction x && !isNegative x then trunc x + 1 else trunc x

/-- The remainder of a division that rounds toward zero, with the sign of the dividend. -/
def rem (x y : Float) : Float :=
  if x.isNaN || y.isNaN || x.isInf || y == 0.0 then 0.0 / 0.0
  else if y.isInf then x
  else
    let a := ofFloat x
    let b := ofFloat y
    let exponent := min a.exponent b.exponent
    let significand :=
      shift a.significand (a.exponent - exponent) % shift b.significand (b.exponent - exponent)
    toFloat ⟨a.negative, significand, exponent⟩

end Double

end Unravel
