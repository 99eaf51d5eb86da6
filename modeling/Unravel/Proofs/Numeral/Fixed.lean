import Unravel.Numeral.Places
import Unravel.Proofs.Numeral.Digits
import Unravel.Proofs.Numeral.Rounded

/-!
Numbers with a fixed count of decimal places. The digits that are kept of an expansion, with the
carry that may run through all of them, are those of the nearest multiple of the last place
(`Decimal.kept_spec`), and the expansion of a double is exact (`Decimal.expansion_spec`). So a
double is written as its exact value, rounded once (`Decimal.fixed?_rounds`).
-/

namespace Unravel.Decimal

variable {c : Char} {cs whole fraction : List Char} {places : Nat}

/-! ### The next number -/

def raised (cs : List Char) : List Char := (increment cs.reverse).reverse

theorem raised_concat (cs : List Char) (c : Char) :
    raised (cs ++ [c]) = if c = '9' then raised cs ++ ['0']
      else cs ++ [Char.ofNat (c.toNat + 1)] := by
  rw [raised, List.reverse_concat, increment]
  split
  · rw [List.reverse_cons, raised]
  · rw [List.reverse_cons, List.reverse_reverse]

theorem toNat_next (digit : isDigit c = true) (notNine : c ≠ '9') :
    (Char.ofNat (c.toNat + 1)).toNat = c.toNat + 1 ∧ c.toNat < 57 := by
  have bounds := isDigit_iff.mp digit
  have different : c.toNat ≠ 57 := fun same => notNine (Char.toNat_inj.mp same)
  refine ⟨?_, by omega⟩
  rw [Char.toNat_ofNat, if_pos (.inl (by omega))]

theorem natOfDigits_concat (cs : List Char) (c : Char) :
    natOfDigits (cs ++ [c]) = 10 * natOfDigits cs + (c.toNat - 48) := by
  rw [natOfDigits, natOfDigits, List.foldl_append]
  rfl

theorem raised_spec (digits : ∀ c ∈ cs, isDigit c = true) :
    (∀ c ∈ raised cs, isDigit c = true) ∧ natOfDigits (raised cs) = natOfDigits cs + 1 ∧
      cs.length ≤ (raised cs).length ∧
      ((raised cs).head? = some '0' → cs.head? = some '0' ∧ (raised cs).length = cs.length) := by
  induction cs using List.reverseRecOn with
  | nil => exact ⟨List.forall_mem_singleton.mpr rfl, by simp [raised, increment, natOfDigits],
    Nat.zero_le _, by decide⟩
  | append_singleton cs c induction =>
    rw [List.forall_mem_append, List.forall_mem_singleton] at digits
    obtain ⟨front, last⟩ := digits
    rw [raised_concat, natOfDigits_concat, List.length_append]
    split
    · rename_i isNine
      obtain ⟨all, next, longer, zero⟩ := induction front
      subst isNine
      have inhabited : raised cs ≠ [] := by
        intro none
        rw [none] at next
        exact absurd next (Nat.ne_of_lt (Nat.succ_pos _))
      refine ⟨?_, ?_, ?_, ?_⟩
      · rw [List.forall_mem_append, List.forall_mem_singleton]
        exact ⟨all, rfl⟩
      · rw [natOfDigits_concat, next]
        simp only [Char.reduceToNat]
        omega
      · rw [List.length_append]
        exact Nat.add_le_add_right longer 1
      · rw [List.head?_append_of_ne_nil _ inhabited, List.length_append]
        intro isZero
        obtain ⟨sameZero, sameLength⟩ := zero isZero
        refine ⟨?_, congrArg (· + 1) sameLength⟩
        rw [List.head?_append, sameZero]
        rfl
    · rename_i notNine
      obtain ⟨next, small⟩ := toNat_next last notNine
      have bounds := isDigit_iff.mp last
      refine ⟨?_, ?_, ?_, ?_⟩
      · rw [List.forall_mem_append, List.forall_mem_singleton, isDigit_iff, next]
        exact ⟨front, by omega⟩
      · rw [natOfDigits_concat, next]
        omega
      · rw [List.length_append]
        exact Nat.le_refl _
      · intro isZero
        refine ⟨?_, by rw [List.length_append]; rfl⟩
        cases cs with
        | nil =>
          have zero := congrArg (Option.map Char.toNat) isZero
          simp only [List.nil_append, List.head?_cons, Option.map_some, next, Option.some.injEq,
            Char.reduceToNat] at zero
          omega
        | cons first rest => exact isZero

/-! ### Digits that are kept -/

/--
Half of a place is reached exactly if the next digit is five at least, whatever the digits behind it
are. -/
theorem nearest_of_digit {digit dropped unit : Nat} (small : dropped < unit) (n : Nat) :
    (n * (unit * 10) + (digit * unit + dropped) + 5 * unit) / (unit * 10) =
      n + (digit + 5) / 10 := by
  have positive : 0 < unit := Nat.zero_lt_of_lt small
  calc (n * (unit * 10) + (digit * unit + dropped) + 5 * unit) / (unit * 10)
      = ((digit + 5) * unit + dropped + n * (unit * 10)) / (unit * 10) := by congr 1; ring
    _ = ((digit + 5) * unit + dropped) / (unit * 10) + n := Nat.add_mul_div_right _ _ (by omega)
    _ = (digit + 5) / 10 + n := by
        rw [← Nat.div_div_eq_div_mul, Nat.add_comm _ dropped, Nat.add_mul_div_right _ _ positive,
          Nat.div_eq_of_lt small, Nat.zero_add]
    _ = n + (digit + 5) / 10 := Nat.add_comm ..

/-- The digits that are kept denote the nearest number: half of the last place that is kept is added
before the others are dropped. A digit is added only in front of nines, so there is no superfluous
zero unless there was one. -/
theorem kept_spec (wholeDigits : ∀ c ∈ whole, isDigit c = true)
    (fractionDigits : ∀ c ∈ fraction, isDigit c = true) (room : places < fraction.length) :
    (∀ c ∈ kept whole fraction places, isDigit c = true) ∧
      natOfDigits (kept whole fraction places) =
        (natOfDigits (whole ++ fraction) + 5 * 10 ^ (fraction.length - places - 1)) /
          10 ^ (fraction.length - places) ∧
      whole.length + places ≤ (kept whole fraction places).length ∧
      ((kept whole fraction places).head? = some '0' →
      (whole ++ fraction.take places).head? = some '0' ∧
        (kept whole fraction places).length = whole.length + places) := by
  obtain ⟨taken, next, rest, rfl, isPlaces⟩ : ∃ taken next rest, fraction = taken ++ next :: rest ∧
      taken.length = places := by
    refine ⟨fraction.take places, fraction[places], fraction.drop (places + 1), ?_, ?_⟩
    · rw [List.getElem_cons_drop, List.take_append_drop]
    · exact List.length_take_of_le (Nat.le_of_lt room)
  subst isPlaces
  rw [List.forall_mem_append, List.forall_mem_cons] at fractionDigits
  obtain ⟨takenDigits, nextDigit, restDigits⟩ := fractionDigits
  have digits : ∀ c ∈ whole ++ taken, isDigit c = true :=
    List.forall_mem_append.mpr ⟨wholeDigits, takenDigits⟩
  have bounds := isDigit_iff.mp nextDigit
  have small := natOfDigits_lt restDigits
  have value : natOfDigits (whole ++ (taken ++ next :: rest)) =
      natOfDigits (whole ++ taken) * 10 ^ (rest.length + 1) +
        ((next.toNat - 48) * 10 ^ rest.length +
          natOfDigits rest) := by
    have split := natOfDigits_append [next] rest
    rw [show natOfDigits [next] = next.toNat - 48 from Nat.zero_add _, List.singleton_append]
      at split
    rw [← List.append_assoc, natOfDigits_append, split, List.length_cons]
  have lengths : (taken ++ next :: rest).length - taken.length = rest.length + 1 := by
    rw [List.length_append, List.length_cons, Nat.add_sub_cancel_left]
  have one : (taken ++ next :: rest).take taken.length = taken := List.take_left
  have isKept : kept whole (taken ++ next :: rest) taken.length =
      if 53 ≤ next.toNat then raised (whole ++ taken) else whole ++ taken := by
    have isNext : (taken ++ next :: rest)[taken.length]? = some next := by
      rw [List.getElem?_append_right (Nat.le_refl _), Nat.sub_self]
      rfl
    rw [kept, one, isNext, Option.any_some]
    simp only [decide_eq_true_eq]
    rfl
  rw [lengths, Nat.add_sub_cancel, value, Nat.pow_succ, nearest_of_digit small, one, isKept]
  split
  · obtain ⟨all, isNext, longer, zero⟩ := raised_spec digits
    rw [List.length_append] at longer zero
    exact ⟨all, by omega, longer, zero⟩
  · refine ⟨digits, by omega, by simp, by simp⟩

/-! ### The expansion -/

theorem padded_spec {n count : Nat} (inhabited : 0 < count) (small : n < 10 ^ count) :
    (List.replicate (count - (Nat.toDigits 10 n).length) '0' ++ Nat.toDigits 10 n).length = count ∧
      (∀ c ∈ List.replicate (count - (Nat.toDigits 10 n).length) '0' ++ Nat.toDigits 10 n,
        isDigit c = true) ∧
      natOfDigits (List.replicate (count - (Nat.toDigits 10 n).length) '0' ++ Nat.toDigits 10 n) =
        n := by
  have short := (Nat.length_toDigits_le_iff (by decide) inhabited).mpr small
  refine ⟨?_, List.forall_mem_append.mpr ⟨fun c member => ?_, fun _ => isDigit_of_mem_toDigits⟩, ?_⟩
  · rw [List.length_append, List.length_replicate]
    exact Nat.sub_add_cancel short
  · rw [(List.mem_replicate.mp member).2]
    rfl
  · rw [natOfDigits_append, natOfDigits_replicate_zero, Nat.zero_mul, Nat.zero_add,
      natOfDigits_toDigits]

theorem split_spec (n : Nat) {count : Nat} (inhabited : 0 < count)
    (isSplit :
      (Nat.toDigits 10 (n / 10 ^ count),
        List.replicate (count - (Nat.toDigits 10 (n % 10 ^ count)).length) '0' ++
        Nat.toDigits 10 (n % 10 ^ count)) = (whole, fraction)) :
    (∀ c ∈ whole, isDigit c = true) ∧ (∀ c ∈ fraction, isDigit c = true) ∧ whole ≠ [] ∧
      (whole.head? = some '0' → whole = ['0']) ∧ fraction.length = count ∧
        natOfDigits (whole ++ fraction) = n := by
  obtain ⟨rfl, rfl⟩ := Prod.mk.inj isSplit
  obtain ⟨length, digits, value⟩ := padded_spec inhabited (Nat.mod_lt n (Nat.pow_pos (by decide)))
  refine ⟨fun _ => isDigit_of_mem_toDigits, digits, Nat.toDigits_ne_nil,
    toDigits_of_head, length, ?_⟩
  rw [natOfDigits_append, length, value, natOfDigits_toDigits, Nat.div_add_mod']

theorem expansion_spec {d : Double} (isExpansion : expansion d = (whole, fraction)) :
    (∀ c ∈ whole, isDigit c = true) ∧ (∀ c ∈ fraction, isDigit c = true) ∧ whole ≠ [] ∧
      (whole.head? = some '0' → whole = ['0']) ∧ fraction.length = exactPlaces ∧
      natOfDigits (whole ++ fraction) = steps d := by
  have inhabited : 0 < exactPlaces := by decide
  rw [expansion] at isExpansion
  generalize exactPlaces = count at isExpansion inhabited ⊢
  exact split_spec (steps d) inhabited isExpansion

theorem cast_steps {d : Double} (least : -1074 ≤ d.exponent) :
    (steps d : ℚ) = |d.value| * 10 ^ exactPlaces := by
  have enough : (-d.exponent).toNat ≤ exactPlaces := by
    change (-d.exponent).toNat ≤ 1100
    omega
  have divides : 2 ^ (-d.exponent).toNat ∣ d.significand * 2 ^ d.exponent.toNat *
      10 ^ exactPlaces :=
    Dvd.dvd.mul_left ((pow_dvd_pow 2 enough).trans (pow_dvd_pow_of_dvd (by decide) _)) _
  have nonzero : ((2 ^ (-d.exponent).toNat : Nat) : ℚ) ≠ 0 := by positivity
  have exponent : (2 : ℚ) ^ d.exponent = 2 ^ d.exponent.toNat / 2 ^ (-d.exponent).toNat := by
    rw [← zpow_natCast, ← zpow_natCast, ← zpow_sub₀ two_ne_zero, Int.toNat_sub_toNat_neg]
  rw [steps, Nat.pow_eq, Nat.pow_eq, Nat.pow_eq, Nat.cast_div divides nonzero,
    Double.abs_value, exponent]
  push_cast
  ring

theorem floor_eq {d : Double} (least : -1074 ≤ d.exponent) (allowed : places ≤ 100) :
    ⌊|d.value| * 10 ^ places + 1 / 2⌋₊ =
      (steps d + 5 * 10 ^ (exactPlaces - places - 1)) / 10 ^ (exactPlaces - places) := by
  obtain ⟨rest, isRest⟩ : ∃ rest, exactPlaces - places = rest + 1 := ⟨1099 - places,
    by rw [exactPlaces]; omega⟩
  have exponents : exactPlaces = places + (rest + 1) := by omega
  have exact_ : |d.value| * 10 ^ places + 1 / 2 =
      ((steps d + 5 * 10 ^ rest : Nat) : ℚ) / ((10 ^ (rest + 1) : Nat) : ℚ) := by
    rw [Nat.cast_add, cast_steps least, exponents]
    push_cast
    field_simp
    ring
  rw [isRest, Nat.add_sub_cancel, exact_, Nat.floor_div_eq_div]

theorem ticks_bound : Double.ticks 1e21 = (10 ^ 21 * Double.one : Nat) := by decide +kernel

theorem isWritten {x : Float} (isFinite : x.isFinite = true)
    (bounded : |(Double.ofFloat x).value| < 10 ^ 21) :
    (!x.isFinite || decide (x.abs ≥ 1e21)) = false := by
  have unit : (0 : ℚ) < Double.one := Nat.cast_pos.mpr Double.one_pos
  rw [isFinite, Bool.not_true, Bool.false_or, decide_eq_false_iff_not,
    Double.abs_ge_iff isFinite (by decide), ticks_bound, Int.not_le]
  rw [Double.value_ofFloat, abs_div, abs_of_pos unit, div_lt_iff₀ unit] at bounded
  exact_mod_cast bounded

/-- A finite number below `10 ^ 21` is written with as many decimal places as it is asked for,
rounded once from its exact value, a half away from zero. There is a digit in front of the point and
no zero that is not needed. -/
theorem fixed?_rounds {x : Float} (isFinite : x.isFinite = true)
    (bounded : |(Double.ofFloat x).value| < 10 ^ 21) (allowed : places ≤ 100) :
    ∃ whole decimals : List Char,
      fixed? x places =
        some (String.ofList ((if (Double.ofFloat x).value < 0 then ['-'] else []) ++ whole ++
          if places = 0 then [] else '.' :: decimals)) ∧
      (∀ c ∈ whole ++ decimals, isDigit c = true) ∧ whole ≠ [] ∧
        (whole.head? = some '0' → whole = ['0']) ∧
        decimals.length = places ∧
        natOfDigits (whole ++ decimals) = ⌊|(Double.ofFloat x).value| * 10 ^ places + 1 / 2⌋₊ := by
  obtain ⟨whole, fraction, isExpansion⟩ :
    ∃ whole fraction, expansion (Double.ofFloat x) = (whole, fraction) :=
      ⟨_, _, rfl⟩
  obtain ⟨wholeDigits, fractionDigits, inhabited, noZero, length, value⟩ :=
    expansion_spec isExpansion
  obtain ⟨digits, rounded, long, zero⟩ := kept_spec wholeDigits fractionDigits
    (show places < fraction.length by rw [length, exactPlaces]; omega)
  rw [value, length, ← floor_eq (Double.least_exponent x) allowed] at rounded
  have written := isWritten isFinite bounded
  have minus : x < 0.0 ↔ (Double.ofFloat x).value < 0 := by
    rw [Double.lt_iff (Double.isFinite_iff.mp isFinite).1 (by decide), Double.value_neg_iff]
    exact Iff.rfl
  have positive : 0 < whole.length := List.length_pos_of_ne_nil inhabited
  generalize isKept : kept whole fraction places = kept at digits rounded long zero
  obtain ⟨split, isSplit⟩ : ∃ split, kept.length = split + 1 + places :=
    ⟨kept.length - places - 1, by omega⟩
  have position : kept.length - places = split + 1 := by omega
  refine ⟨kept.take (split + 1), kept.drop (split + 1), ?_, ?_, ?_, ?_, ?_, ?_⟩
  · rw [fixed?, if_neg (Nat.not_lt.mpr allowed), if_neg (Bool.eq_false_iff.mp written), isExpansion]
    simp only [isKept, position, minus, Nat.pos_iff_ne_zero, ne_eq, ite_not]
  · rwa [List.take_append_drop]
  · rw [ne_eq, List.take_eq_nil_iff]
    rintro (none | none)
    · exact Nat.succ_ne_zero split none
    · rw [none, List.length_nil] at isSplit
      omega
  · intro isZero
    rw [List.head?_take, if_neg (Nat.succ_ne_zero split)] at isZero
    obtain ⟨first, same⟩ := zero isZero
    rw [List.head?_append_of_ne_nil _ inhabited] at first
    rw [noZero first, List.length_singleton] at same
    obtain ⟨rest, rfl⟩ := List.head?_eq_some_iff.mp isZero
    obtain rfl : split = 0 := by omega
    rfl
  · rw [List.length_drop]
    omega
  · rw [List.take_append_drop, rounded]

/-- The carry of nine and thirty-one thirty-seconds runs through the point. -/
theorem exists_fixed?_rounds : ∃ whole decimals : List Char,
    fixed? 9.96875 1 = some (String.ofList (whole ++ '.' :: decimals)) ∧ decimals.length = 1 ∧
      natOfDigits (whole ++ decimals) = 100 := by
  have parts : Double.ofFloat 9.96875 = ⟨false, 5611907348168704, -49⟩ := by decide +kernel
  have value : (Double.ofFloat 9.96875).value = 319 / 32 := by
    rw [parts, Double.value]
    norm_num
  obtain ⟨whole, decimals, written, -, -, -, length, rounded⟩ :=
    fixed?_rounds (x := 9.96875) (by decide) (by rw [value]; norm_num [abs_of_pos])
      (show 1 ≤ 100 by decide)
  refine ⟨whole, decimals, ?_, length, rounded.trans ?_⟩
  · rw [written, if_neg (by rw [value]; norm_num)]
    rfl
  · rw [value]
    norm_num [abs_of_pos, Nat.floor_eq_iff]

end Unravel.Decimal
