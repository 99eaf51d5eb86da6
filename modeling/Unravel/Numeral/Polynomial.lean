import Unravel.Numeral.Double

/-!
What the elementary functions are made of. Each of them is a fixed sequence of operations on
doubles, so a result does not depend on where it is computed: the argument is brought into a
short interval, and there the function is a polynomial, or a quotient of two.
-/

namespace Unravel.Double

/-- The polynomial with these coefficients, the constant one first, evaluated from the highest
power down. -/
def horner (x : Float) : List Float → Float
  | [] => 0.0
  | [c] => c
  | c :: rest => c + x * horner x rest

/-- A double without the lower half of its bits. A product of two such numbers is exact. -/
def upperHalf (x : Float) : Float := Float.ofBits (x.toBits >>> 32 <<< 32)

def powerOfTwo (exponent : Int) : Float := toFloat ⟨false, 1, exponent⟩

/-- The natural logarithm of two without its lowest bits, so that multiples of it are exact. -/
def logTwoUpper : Float := 6.93147180369123816490e-01

/-- What `logTwoUpper` lacks. -/
def logTwoLower : Float := 1.90821492927058770002e-10

@[simp] theorem horner_nil (x : Float) : horner x [] = 0.0 := rfl

@[simp] theorem horner_singleton (x c : Float) : horner x [c] = c := rfl

theorem horner_cons_cons (x c d : Float) (rest : List Float) :
    horner x (c :: d :: rest) = c + x * horner x (d :: rest) := rfl

end Unravel.Double
