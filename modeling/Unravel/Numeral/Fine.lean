import Unravel.Numeral.Double

/-!
Numbers in units of a fixed power of two, fine enough to hold every finite double exactly, and
the doubles nearest to them.
-/

namespace Unravel.Fine

/-- The number of binary places. -/
def places : Nat := 1280

/-- One, in fine units. -/
def one : Int := (1 <<< places : Nat)

/-- A finite double in fine units. -/
def ofDouble (d : Double) : Int :=
  let n : Int := Double.shift d.significand (d.exponent + places)
  if d.negative then -n else n

def nearest (x : Int) : Float :=
  let n := x.natAbs
  let excess : Int := (n.log2 : Int) - 53
  Double.toFloat ⟨x < 0, (Double.shift n (-excess) + 1) / 2, excess + 1 - places⟩

/-- The alternating sum of the odd powers of `1 / n`, each over its exponent, from the exponent
`k` on. -/
def arctanSeries (n : Nat) : Nat → Nat → Int → Int
  | 0, _, _ => 0
  | terms + 1, k, power => power / k - arctanSeries n terms (k + 2) (power / (n * n))

def arctanInverse (n : Nat) : Int := arctanSeries n 280 1 (one / n)

def quarterTurn : Int := 8 * arctanInverse 5 - 2 * arctanInverse 239

end Unravel.Fine
