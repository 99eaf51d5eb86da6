import Mathlib
import Unravel.Numeral.Read

/-!
Digits of decimal numerals. The digits of a numeral are those of the number that it denotes as long
as no zero stands in front (`Decimal.toDigits_natOfDigits`), and the number that the first digits of
a numeral denote is a quotient (`Decimal.natOfDigits_append`).
-/

namespace Unravel.Decimal

variable {c : Char} {cs : List Char} {n : Nat}

theorem isDigit_iff : isDigit c = true ↔ 48 ≤ c.toNat ∧ c.toNat ≤ 57 := by
  simp only [isDigit, Bool.and_eq_true, decide_eq_true_eq]
  exact Iff.rfl

theorem natOfDigits_lt (digits : ∀ c ∈ cs, isDigit c = true) : natOfDigits cs < 10 ^ cs.length := by
  change Nat.ofDigitChars 10 cs 0 < _
  induction cs with
  | nil => decide
  | cons c cs induction =>
    rw [List.forall_mem_cons, isDigit_iff] at digits
    have rest := induction digits.2
    rw [Nat.ofDigitChars_cons, Nat.ofDigitChars_eq_ofDigitChars_zero,
      List.length_cons, Nat.pow_succ]
    have digit : 10 * 0 + (c.toNat - '0'.toNat) ≤ 9 := by
      change 10 * 0 + (c.toNat - 48) ≤ 9
      omega
    have head := Nat.mul_le_mul_left (10 ^ cs.length) digit
    omega

theorem digitChar_of_isDigit (digit : isDigit c = true) : Nat.digitChar (c.toNat - 48) = c := by
  rw [isDigit_iff] at digit
  apply Char.toNat_inj.mp
  rw [Nat.toNat_digitChar_of_lt_ten (by omega)]
  omega

theorem toDigits_append (positive : 0 < n) (digits : ∀ c ∈ cs, isDigit c = true) :
    Nat.toDigits 10 n ++ cs = Nat.toDigits 10 (Nat.ofDigitChars 10 cs n) := by
  induction cs generalizing n with
  | nil => simp
  | cons c cs induction =>
    rw [List.forall_mem_cons] at digits
    have bounds := isDigit_iff.mp digits.1
    have one : Nat.toDigits 10 (c.toNat - 48) = [c] := by
      rw [Nat.toDigits_of_lt_base (by omega), digitChar_of_isDigit digits.1]
    have next := Nat.toDigits_append_toDigits (b := 10) (d := c.toNat - 48) (by decide)
      positive (by omega)
    rw [Nat.ofDigitChars_cons, ← induction (by omega) digits.2]
    change _ = Nat.toDigits 10 (10 * n + (c.toNat - 48)) ++ cs
    rw [← next, one, List.append_assoc, List.singleton_append]

/-- Digits without a zero in front are those of the number that they denote. -/
theorem toDigits_natOfDigits (digits : ∀ c' ∈ c :: cs, isDigit c' = true) (nonzero : c ≠ '0') :
    Nat.toDigits 10 (natOfDigits (c :: cs)) = c :: cs := by
  rw [List.forall_mem_cons] at digits
  have bounds := isDigit_iff.mp digits.1
  have positive : 0 < c.toNat - 48 := by
    have different : c.toNat ≠ 48 := fun same => nonzero (Char.toNat_inj.mp same)
    omega
  have rest := toDigits_append positive digits.2
  rw [Nat.toDigits_of_lt_base (by omega), digitChar_of_isDigit digits.1] at rest
  rw [show natOfDigits (c :: cs) = Nat.ofDigitChars 10 cs (10 * 0 + (c.toNat - 48)) from
    Nat.ofDigitChars_cons, Nat.mul_zero, Nat.zero_add, ← rest, List.singleton_append]

theorem toDigits_ne_zero_cons {c : Char} (digits : ∀ c' ∈ c :: cs, isDigit c' = true) :
    Nat.toDigits 10 n ≠ '0' :: c :: cs := by
  intro same
  have value : n = natOfDigits (c :: cs) := by
    rw [← Nat.ofDigitChars_ten_toDigits (n := n), same]
    rfl
  have short := (Nat.length_toDigits_le_iff (by decide) (Nat.succ_pos _)).mpr
    (value ▸ natOfDigits_lt digits)
  rw [same] at short
  exact Nat.not_succ_le_self _ short

theorem isDigit_of_mem_toDigits (member : c ∈ Nat.toDigits 10 n) : isDigit c = true := by
  have digit := Nat.isDigit_of_mem_toDigits (by decide) (by decide) member
  rw [Char.isDigit, Bool.and_eq_true, decide_eq_true_eq, decide_eq_true_eq] at digit
  exact isDigit_iff.mpr digit

theorem natOfDigits_toDigits (n : Nat) : natOfDigits (Nat.toDigits 10 n) = n :=
  Nat.ofDigitChars_ten_toDigits

theorem natOfDigits_append (as bs : List Char) :
    natOfDigits (as ++ bs) = natOfDigits as * 10 ^ bs.length + natOfDigits bs := by
  change Nat.ofDigitChars 10 (as ++ bs) 0 = Nat.ofDigitChars 10 as 0 * 10 ^ bs.length +
    Nat.ofDigitChars 10 bs 0
  rw [Nat.ofDigitChars_append, Nat.ofDigitChars_eq_ofDigitChars_zero, Nat.mul_comm]

theorem natOfDigits_replicate_zero (count : Nat) : natOfDigits (List.replicate count '0') = 0 := by
  change Nat.ofDigitChars 10 (List.replicate count '0') 0 = 0
  rw [Nat.ofDigitChars_replicate_zero, Nat.mul_zero]

theorem toDigits_of_head (zero : (Nat.toDigits 10 n).head? = some '0') :
    Nat.toDigits 10 n = ['0'] := by
  have digits {c : Char} (member : c ∈ Nat.toDigits 10 n) : isDigit c = true :=
    isDigit_of_mem_toDigits member
  cases shape : Nat.toDigits 10 n with
  | nil => exact absurd shape Nat.toDigits_ne_nil
  | cons c cs =>
    rw [shape] at zero
    cases zero
    cases cs with
    | nil => rfl
    | cons c cs =>
      have rest : ∀ c' ∈ c :: cs, isDigit c' = true := fun c' member =>
        digits (shape ▸ List.mem_cons_of_mem _ member)
      exact absurd shape (toDigits_ne_zero_cons rest)

end Unravel.Decimal
