import Unravel.Numeral.Read
import Unravel.Proofs.Numeral.Rounded

/-!
Numerals in radixes from 2 to 36. There is one numeral of an integer in lower case and without a
zero that is not needed (`Radix.Numeral`), and it is the one that is printed
(`Radix.numeral_text?`). Digits are read with a rounding after each of them, and as long as the
number they denote has room in a significand none of these roundings changes anything
(`Radix.value?_exact`). So the integer is read back (`Radix.leading_text?`).
-/

namespace Unravel.Radix

variable {radix n m d e limit : Nat} {c : Char} {cs ds tail : List Char}

/-! ### The grammar -/

inductive Digit (c : Char) : Nat → Prop where
  | decimal : '0'.toNat ≤ c.toNat → c.toNat ≤ '9'.toNat → Digit c (c.toNat - '0'.toNat)
  | letter : 'a'.toNat ≤ c.toNat → c.toNat ≤ 'z'.toNat → Digit c (c.toNat - 'a'.toNat + 10)

/-- Digits and the number that they denote. -/
inductive Denotes (radix : Nat) : List Char → Nat → Prop where
  | nil : Denotes radix [] 0
  | concat {cs : List Char} {n : Nat} {c : Char} {d : Nat} :
      Denotes radix cs n → Digit c d → d < radix →
      Denotes radix (cs ++ [c]) (n * radix + d)

/--
The numeral of an integer: a minus sign in front of a negative number, and no zero that is not
needed. -/
def Numeral (radix : Nat) (n : Int) (s : String) : Prop :=
  ∃ cs, s.toList = (if n < 0 then ['-'] else []) ++ cs ∧ cs ≠ [] ∧
    (cs.head? = some '0' → cs = ['0']) ∧
    Denotes radix cs n.natAbs

theorem Digit.bounds (digit : Digit c d) : 48 ≤ c.toNat ∧ c.toNat ≤ 57 ∧ d + 48 = c.toNat ∨
    97 ≤ c.toNat ∧ c.toNat ≤ 122 ∧ d + 87 = c.toNat := by
  cases digit with
  | decimal low high =>
    change 48 ≤ c.toNat at low
    change c.toNat ≤ 57 at high
    exact .inl ⟨low, high, Nat.sub_add_cancel low⟩
  | letter low high =>
    change 97 ≤ c.toNat at low
    change c.toNat ≤ 122 at high
    refine .inr ⟨low, high, ?_⟩
    change c.toNat - 97 + 10 + 87 = c.toNat
    omega

theorem Digit.unique {b : Char} (first : Digit b d) (second : Digit c d) : b = c := by
  have bounds := first.bounds
  have boundsToo := second.bounds
  exact Char.toNat_inj.mp (by omega)

theorem digit_digitChar (small : d < 36) : Digit (digitChar d) d := by
  have zero : '0'.toNat = 48 := rfl
  have a : 'a'.toNat = 97 := rfl
  rw [digitChar, zero, a]
  split
  · rename_i isDecimal
    have value : (Char.ofNat (48 + d)).toNat = 48 + d := by
      rw [Char.toNat_ofNat, if_pos (.inl (by omega))]
    have digit := @Digit.decimal (Char.ofNat (48 + d))
    rw [value, zero, show '9'.toNat = 57 from rfl, Nat.add_sub_cancel_left] at digit
    exact digit (by omega) (by omega)
  · rename_i isLetter
    have value : (Char.ofNat (97 + (d - 10))).toNat = 97 + (d - 10) := by
      rw [Char.toNat_ofNat, if_pos (.inl (by omega))]
    have digit := @Digit.letter (Char.ofNat (97 + (d - 10)))
    rw [value, a, show 'z'.toNat = 122 from rfl, Nat.add_sub_cancel_left,
      Nat.sub_add_cancel (by omega)] at digit
    exact digit (by omega) (by omega)

theorem digitValue?_of_digit (digit : Digit c d) (small : d < radix) :
    digitValue? radix c = some d := by
  have zero : '0'.toNat = 48 := rfl
  have nine : '9'.toNat = 57 := rfl
  have a : 'a'.toNat = 97 := rfl
  have z : 'z'.toNat = 122 := rfl
  rw [digitValue?, Option.filter_eq_some_iff, decide_eq_true_eq]
  refine ⟨?_, small⟩
  rw [zero, nine, a, z]
  rcases digit.bounds with ⟨low, high, value⟩ | ⟨low, high, value⟩
  · rw [if_pos ⟨low, high⟩, ← value, Nat.add_sub_cancel]
  · rw [if_neg (by omega), if_pos ⟨low, high⟩]
    congr 1
    omega

/-! ### One numeral for each number -/

theorem head?_of_concat (noZero : (cs ++ [c]).head? ≠ some '0') : cs.head? ≠ some '0' := by
  cases cs with
  | nil => exact nofun
  | cons first rest => exact noZero

/-- Digits denote a positive number if the first one is no zero. -/
theorem Denotes.positive (denotes : Denotes radix cs n) (noZero : cs.head? ≠ some '0')
    (inhabited : cs ≠ []) : 0 < n := by
  induction denotes with
  | nil => exact absurd rfl inhabited
  | @concat cs n c d front digit small induction =>
    by_cases only : cs = []
    · subst only
      have nonzero : c.toNat ≠ 48 := fun same => noZero (congrArg some (Char.toNat_inj.mp same))
      have bounds := digit.bounds
      omega
    · have frontPositive := Nat.mul_pos (induction (head?_of_concat noZero) only)
        (Nat.zero_lt_of_lt small)
      omega

theorem Denotes.unique (first : Denotes radix cs n) (second : Denotes radix ds m) (same : n = m)
    (firstZero : cs.head? ≠ some '0') (secondZero : ds.head? ≠ some '0') : cs = ds := by
  induction first generalizing ds m with
  | nil =>
    by_contra inhabited
    exact absurd same (Nat.ne_of_lt (second.positive secondZero (Ne.symm inhabited)))
  | @concat cs n c d front digit small induction =>
    have positive := (front.concat digit small).positive firstZero
      (List.append_ne_nil_of_right_ne_nil _ nofun)
    cases second with
    | nil => omega
    | @concat ds m b e frontToo digitToo smallToo =>
      have quotients := congrArg (· / radix) same
      have remainders := congrArg (· % radix) same
      have radixPositive : 0 < radix := Nat.zero_lt_of_lt small
      simp only [Nat.mul_comm _ radix, Nat.mul_add_div radixPositive, Nat.mul_add_mod,
        Nat.div_eq_of_lt small, Nat.div_eq_of_lt smallToo, Nat.mod_eq_of_lt small,
        Nat.mod_eq_of_lt smallToo, Nat.add_zero] at quotients remainders
      subst remainders
      rw [digit.unique digitToo,
        induction frontToo quotients (head?_of_concat firstZero) (head?_of_concat secondZero)]

theorem Denotes.of_nil (denotes : Denotes radix [] n) : n = 0 := by
  generalize isNil : [] = cs at denotes
  cases denotes with
  | nil => rfl
  | @concat cs n c d =>
    exact absurd isNil.symm (List.append_ne_nil_of_right_ne_nil cs (List.cons_ne_nil c []))

theorem Denotes.of_concat (denotes : Denotes radix (cs ++ [c]) n) :
    ∃ m d, Denotes radix cs m ∧ Digit c d ∧ d < radix ∧ n = m * radix + d := by
  generalize isWhole : cs ++ [c] = ds at denotes
  cases denotes with
  | nil => exact absurd isWhole (List.append_ne_nil_of_right_ne_nil cs (List.cons_ne_nil c []))
  | @concat ds m b d front digit small =>
    obtain ⟨rfl, same⟩ := List.append_inj' isWhole rfl
    cases same
    exact ⟨m, d, front, digit, small, rfl⟩

theorem Denotes.of_zero (denotes : Denotes radix ['0'] n) : n = 0 := by
  obtain ⟨m, d, front, digit, -, rfl⟩ := @Denotes.of_concat radix n '0' [] denotes
  have bounds := digit.bounds
  have zero : '0'.toNat = 48 := rfl
  rw [front.of_nil, Nat.zero_mul]
  omega

theorem Denotes.zero_or_positive (denotes : Denotes radix cs n) (inhabited : cs ≠ [])
    (noZero : cs.head? = some '0' → cs = ['0']) :
    n = 0 ∧ cs = ['0'] ∨ 0 < n ∧ cs.head? ≠ some '0' := by
  by_cases zero : cs.head? = some '0'
  · have isZero := noZero zero
    subst isZero
    exact .inl ⟨denotes.of_zero, rfl⟩
  · exact .inr ⟨denotes.positive zero inhabited, zero⟩

theorem Numeral.unique {n : Int} {s t : String} (first : Numeral radix n s)
    (second : Numeral radix n t) : s = t := by
  obtain ⟨cs, isText, inhabited, noZero, denotes⟩ := first
  obtain ⟨ds, isTextToo, inhabitedToo, noZeroToo, denotesToo⟩ := second
  have same : cs = ds := by
    rcases denotes.zero_or_positive inhabited noZero with ⟨none, isZero⟩ | ⟨some_, nonzero⟩
    · rcases denotesToo.zero_or_positive inhabitedToo noZeroToo with ⟨-, isZeroToo⟩ | ⟨some_, -⟩
      · exact isZero.trans isZeroToo.symm
      · omega
    · rcases denotesToo.zero_or_positive inhabitedToo noZeroToo with ⟨none, -⟩ | ⟨-, nonzeroToo⟩
      · omega
      · exact denotes.unique denotesToo rfl nonzero nonzeroToo
  rw [← String.toList_inj, isText, isTextToo, same]

/-! ### Numerals that are printed -/

theorem exists_digits (low : 2 ≤ radix) (high : radix ≤ 36) (room : n < radix ^ limit)
    (tail : List Char) :
    ∃ cs, digits radix limit n tail = cs ++ tail ∧ Denotes radix cs n ∧ cs.head? ≠ some '0' := by
  induction limit generalizing n tail with
  | zero =>
    obtain rfl : n = 0 := Nat.lt_one_iff.mp room
    exact ⟨[], rfl, .nil, nofun⟩
  | succ limit induction =>
    rw [digits]
    split
    · rename_i isZero
      exact ⟨[], rfl, isZero ▸ .nil, nofun⟩
    · rename_i nonzero
      have small : n % radix < radix := Nat.mod_lt n (by omega)
      obtain ⟨cs, isFront, denotes, noZero⟩ := induction (n := n / radix)
        (Nat.div_lt_of_lt_mul (by rwa [Nat.mul_comm, ← Nat.pow_succ]))
        (digitChar (n % radix) :: tail)
      have digit := digit_digitChar (Nat.lt_of_lt_of_le small high)
      have whole := denotes.concat digit small
      rw [Nat.div_add_mod'] at whole
      refine ⟨cs ++ [digitChar (n % radix)],
        by rw [isFront, List.append_assoc, List.singleton_append], whole, ?_⟩
      cases cs with
      | nil =>
        intro isZero
        rw [List.nil_append, Option.some.inj isZero] at whole
        exact nonzero whole.of_zero
      | cons => exact noZero

theorem exists_numeral (low : 2 ≤ radix) (high : radix ≤ 36) (room : n < 2 ^ 64) :
    ∃ cs, numeral radix n = String.ofList cs ∧ cs ≠ [] ∧ (cs.head? = some '0' → cs = ['0']) ∧
      Denotes radix cs n := by
  rw [numeral]
  split
  · rename_i isZero
    have zero := Denotes.nil.concat (digit_digitChar (show 0 < 36 by decide))
      (show 0 < radix by omega)
    rw [Nat.zero_mul] at zero
    exact ⟨['0'], rfl, List.cons_ne_nil _ _, fun _ => rfl, isZero ▸ zero⟩
  · rename_i nonzero
    obtain ⟨cs, isFront, denotes, noZero⟩ :=
      exists_digits low high (Nat.lt_of_lt_of_le room (Nat.pow_le_pow_left low 64)) []
    rw [List.append_nil] at isFront
    refine ⟨cs, by rw [isFront], ?_, fun zero => absurd zero noZero, denotes⟩
    rintro rfl
    exact nonzero denotes.of_nil

theorem ticks_bound :
    Double.ticks 9007199254740992.0 = (2 ^ 53 * Double.one : Nat) := by decide +kernel

theorem numeral_text? {x : Float} {n : Int} (isFinite : x.isFinite = true)
    (whole : Double.ticks x = n * Double.one) (small : n.natAbs < 2 ^ 53) (low : 2 ≤ radix)
    (high : radix ≤ 36) (notTen : radix ≠ 10) :
    ∃ s, text? x radix = some s ∧ Numeral radix n s := by
  have printed : (Double.hasFraction x || decide (x.abs ≥ 9007199254740992.0)) = false := by
    rw [Double.hasFraction_of_whole whole, Bool.false_or, decide_eq_false_iff_not,
      Double.abs_ge_iff isFinite (by decide), ticks_bound, whole, Int.not_le, abs_mul, Nat.abs_cast,
      Int.abs_eq_natAbs]
    exact_mod_cast Nat.mul_lt_mul_of_pos_right small Double.one_pos
  obtain ⟨cs, isNumeral, inhabited, noZero, denotes⟩ :=
    exists_numeral low high (Nat.lt_trans small (show 2 ^ 53 < 2 ^ 64 by decide))
  have allowed : (decide (radix < 2) || decide (36 < radix)) = false := by
    rw [decide_eq_false (by omega), decide_eq_false (by omega)]
    rfl
  have notPlain : (decide (radix = 10) || !x.isFinite) = false := by
    rw [decide_eq_false notTen, isFinite]
    rfl
  refine ⟨String.ofList ((if n < 0 then ['-'] else []) ++ cs), ?_, cs, String.toList_ofList,
    inhabited, noZero, denotes⟩
  rw [text?, allowed, notPlain, printed, if_neg Bool.false_ne_true, if_neg Bool.false_ne_true,
    if_neg Bool.false_ne_true, Double.truncToInt_of_whole whole]
  dsimp only
  rw [isNumeral]
  split
  · rw [String.ofList_append]
  · rfl

/-! ### Numerals that are read -/

/-- Digits are read without any rounding while there is room in a significand. -/
theorem value?_exact (denotes : Denotes radix cs n) (small : n < 2 ^ 53) (high : radix ≤ 36) :
    ∃ v, value? radix cs = some v ∧ v.isFinite = true ∧
      Double.ticks v = (n : Int) * Double.one := by
  induction denotes with
  | nil =>
    refine ⟨0.0, rfl, by decide, ?_⟩
    rw [Nat.cast_zero, zero_mul]
    decide +kernel
  | @concat cs n c d front digit less induction =>
    have fewer : n ≤ n * radix := Nat.le_mul_of_pos_right n (Nat.zero_lt_of_lt less)
    obtain ⟨v, isValue, isFinite, exact_⟩ := induction (by omega)
    obtain ⟨radixFinite, radixExact⟩ := Double.ofNat_exact (show radix ≤ 2 ^ 53 by omega)
    obtain ⟨digitFinite, digitExact⟩ := Double.ofNat_exact (show d ≤ 2 ^ 53 by omega)
    rw [Nat.cast_mul] at radixExact digitExact
    obtain ⟨productFinite, product⟩ := Double.mul_exact isFinite radixFinite exact_
      radixExact (by omega)
    obtain ⟨sumFinite, sum⟩ := Double.add_exact productFinite digitFinite product
      digitExact (by omega)
    refine ⟨v * Float.ofNat radix + Float.ofNat d, ?_, sumFinite, ?_⟩
    · rw [value?] at isValue ⊢
      rw [List.foldlM_append, isValue]
      simp [digitValue?_of_digit digit less]
    · rw [sum]
      push_cast
      rfl

theorem Denotes.digit (denotes : Denotes radix cs n) : ∀ c ∈ cs, ∃ d, Digit c d ∧ d < radix := by
  induction denotes with
  | nil => exact nofun
  | concat front digit small induction =>
    rw [List.forall_mem_append, List.forall_mem_singleton]
    exact ⟨induction, _, digit, small⟩

theorem Digit.plain (digit : Digit c d) : Text.isBlank c = false ∧ c ≠ '-' ∧ c ≠ '+' := by
  have minus : '-'.toNat = 45 := rfl
  have plus : '+'.toNat = 43 := rfl
  have bounds := digit.bounds
  refine ⟨?_, fun same => ?_, fun same => ?_⟩
  · simp only [Text.isBlank, Text.isWhiteSpace, Bool.or_eq_false_iff, Bool.and_eq_false_iff,
      decide_eq_false_iff_not]
    omega
  · rw [same] at bounds
    omega
  · rw [same] at bounds
    omega

theorem splitSign_of_denotes (denotes : Denotes radix cs n) (inhabited : cs ≠ []) (minus : Prop)
    [Decidable minus] :
    Decimal.splitSign (Text.trimStart ((if minus then ['-'] else []) ++ cs)) =
      (decide minus, cs) := by
  obtain ⟨first, rest, rfl⟩ := List.exists_cons_of_ne_nil inhabited
  obtain ⟨d, digit, -⟩ := denotes.digit first (List.mem_cons_self ..)
  obtain ⟨notBlank, notMinus, notPlus⟩ := digit.plain
  split
  · rename_i isMinus
    rw [decide_eq_true isMinus]
    rfl
  · rename_i isPlus
    rw [decide_eq_false isPlus, List.nil_append, Text.trimStart,
      List.dropWhile_cons_of_neg (by simp [notBlank])]
    unfold Decimal.splitSign
    split
    · rename_i same
      exact absurd (List.cons.inj same).1 notMinus
    · rename_i same
      exact absurd (List.cons.inj same).1 notPlus
    · rfl

theorem withoutHexMark?_eq_none (noZero : cs.head? = some '0' → cs = ['0']) :
    withoutHexMark? cs = none := by
  have notAnnounced : announced? cs = none := by
    unfold announced?
    split
    · exact absurd (noZero rfl) (by simp)
    · rfl
  rw [withoutHexMark?, notAnnounced]

theorem leading_numeral {n : Int} {s : String} (numeral : Numeral radix n s)
    (small : n.natAbs < 2 ^ 53) (low : 2 ≤ radix) (high : radix ≤ 36) :
    (leading s (some radix)).isFinite = true ∧
    Double.ticks (leading s (some radix)) = n * Double.one := by
  obtain ⟨cs, isText, inhabited, noZero, denotes⟩ := numeral
  obtain ⟨v, isValue, isFinite, exact_⟩ := value?_exact denotes small high
  have allowed : ¬((radix : Int) ≠ 0 ∧ ((radix : Int) < 2 ∨ 36 < (radix : Int))) := by omega
  have digits : cs.takeWhile (fun c => (digitValue? radix c).isSome) = cs := by
    rw [List.takeWhile_eq_self_iff]
    intro c member
    obtain ⟨d, digit, less⟩ := denotes.digit c member
    rw [digitValue?_of_digit digit less]
    rfl
  have isRead : leading s (some radix) = (if n < 0 then -1.0 else 1.0) * v := by
    rw [leading, isText, splitSign_of_denotes denotes inhabited]
    dsimp only [Option.getD_some]
    rw [if_neg allowed, withoutHexMark?_eq_none noZero]
    dsimp only
    rw [if_neg (show (radix : Int) ≠ 0 by omega), Int.toNat_natCast, digits, isValue,
      Option.getD_some, if_neg (by simpa using inhabited)]
    simp only [decide_eq_true_eq]
  obtain ⟨signFinite, signExact⟩ : (if n < 0 then -1.0 else 1.0 : Float).isFinite = true ∧
      Double.ticks (if n < 0 then -1.0 else 1.0) = (if n < 0 then -1 else 1) * Double.one := by
    split
    · exact ⟨by decide, by decide +kernel⟩
    · exact ⟨by decide, by decide +kernel⟩
  have product : (if n < 0 then -1 else 1) * (n.natAbs : Int) = n := by
    split <;> omega
  rw [isRead]
  have read := Double.mul_exact signFinite isFinite signExact exact_ (by rw [product]; omega)
  rwa [product] at read

/-- Whole numbers below `2 ^ 53` are printed as their numeral in a radix, the only one that they
have, and are read back from it. -/
theorem leading_text? {x : Float} {n : Int} (isFinite : x.isFinite = true)
    (whole : (Double.ofFloat x).value = n) (small : |n| < 2 ^ 53) (low : 2 ≤ radix)
    (high : radix ≤ 36) (notTen : radix ≠ 10) :
    ∃ s, text? x radix = some s ∧ Numeral radix n s ∧ (∀ other, Numeral radix n other → other = s) ∧
      (leading s (some radix)).isFinite = true ∧
      (Double.ofFloat (leading s (some radix))).value = n := by
  have unit : (Double.one : ℚ) ≠ 0 := Nat.cast_ne_zero.mpr (Nat.ne_of_gt Double.one_pos)
  have few : n.natAbs < 2 ^ 53 := by
    rw [Int.abs_eq_natAbs] at small
    exact_mod_cast small
  rw [Double.value_ofFloat, div_eq_iff unit] at whole
  obtain ⟨s, printed, numeral⟩ := numeral_text? isFinite (by exact_mod_cast whole) few
    low high notTen
  obtain ⟨readFinite, read⟩ := leading_numeral numeral few low high
  refine ⟨s, printed, numeral, fun other numeralToo => numeralToo.unique numeral, readFinite, ?_⟩
  rw [Double.value_ofFloat, read, Int.cast_mul, Int.cast_natCast, mul_div_cancel_right₀ _ unit]

/-- Minus two hundred and fifty-five has a numeral in radix 16. -/
theorem exists_leading_text? : ∃ s, text? (-255.0) 16 = some s ∧ Numeral 16 (-255) s ∧
    (Double.ofFloat (leading s (some 16))).value = -255 := by
  have value : (Double.ofFloat (-255.0)).value = ((-255 : Int) : ℚ) := by
    have parts : Double.ofFloat (-255.0) = ⟨true, 8972014882652160, -45⟩ := by decide +kernel
    rw [parts, Double.value]
    norm_num
  obtain ⟨s, printed, numeral, -, -, read⟩ := leading_text? (by decide) value (by decide)
    (show 2 ≤ 16 by decide) (by decide) (by decide)
  exact ⟨s, printed, numeral, by exact_mod_cast read⟩

end Unravel.Radix
