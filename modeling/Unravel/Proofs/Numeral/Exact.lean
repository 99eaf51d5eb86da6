import Mathlib
import Unravel.Numeral.Read

/-!
The signs of doubles. A double that is a number is made of a sign bit, an exponent field and a
mantissa field (`Double.assemble`), and negation turns the sign bit and nothing else. So it is
undone by itself, and all infinities are `infinity` or its negation.

Doubles as whole numbers. Every finite double is a multiple of the least positive one
(`Double.ticks`), and an infinity counts as the power of two behind all finite doubles, so the order
of doubles that are numbers is the order of these multiples (`lt_iff`, `le_iff`). Rounding toward
zero and conversion to a machine word divide by the multiple that makes up one (`toNat_truncToInt`,
`toNat_toUInt64`), and so does the rational that a double is (`value_ofFloat`).
-/

namespace Unravel.Double

open Float.Model Float.Model.UnpackedFloat

variable {x : Float} (sign : Sign) (exponent : BitVec 11) (mantissa : BitVec 52)

abbrev assemble : BitVec 64 := packComponents Format.binary64 sign exponent mantissa

theorem toNat_assemble : (assemble sign exponent mantissa).toNat =
    sign.toBitVec.toNat * 2 ^ 63 + exponent.toNat * 2 ^ 52 + mantissa.toNat := by
  rw [assemble, packComponents, BitVec.toNat_append, BitVec.toNat_append,
    ← Nat.shiftLeft_add_eq_or_of_lt exponent.isLt, ← Nat.shiftLeft_add_eq_or_of_lt mantissa.isLt,
    Nat.shiftLeft_eq, Nat.shiftLeft_eq]
  omega

theorem unpackSign_assemble :
    @unpackSign Format.binary64 (assemble sign exponent mantissa) = sign.toBitVec := by
  have signBound := sign.toBitVec.isLt
  have exponentBound := exponent.isLt
  have mantissaBound := mantissa.isLt
  apply BitVec.eq_of_toNat_eq
  simp only [unpackSign, BitVec.toNat_cast, BitVec.extractLsb_toNat, toNat_assemble,
    Nat.shiftRight_eq_div_pow]
  omega

theorem exists_assemble (bits : BitVec 64) :
    ∃ sign exponent mantissa, bits = assemble sign exponent mantissa := by
  have bound := bits.isLt
  refine ⟨if bits.toNat / 2 ^ 63 = 1 then .negative else .positive, .ofNat 11 (bits.toNat / 2 ^ 52),
    .ofNat 52 bits.toNat, BitVec.eq_of_toNat_eq ?_⟩
  rw [toNat_assemble]
  split <;> simp only [Sign.toBitVec, BitVec.toNat_ofNat] <;> omega

theorem ofBitVec_toBitVec : Sign.ofBitVec sign.toBitVec = sign := by cases sign <;> rfl

theorem neg_neg_sign : -(-sign) = sign := by cases sign <;> rfl

theorem toNat_significand : (1#1 ++ mantissa).toNat = 2 ^ 52 + mantissa.toNat := by
  have one : (1#1).toNat = 1 := rfl
  rw [BitVec.toNat_append, ← Nat.shiftLeft_add_eq_or_of_lt mantissa.isLt, Nat.shiftLeft_eq, one,
    Nat.one_mul]

theorem log2_significand : (1#1 ++ mantissa).toNat.log2 = 52 := by
  have mantissaBound := mantissa.isLt
  rw [toNat_significand, Nat.log2_eq_iff] <;> omega

theorem pack_unpack (isNumber : exponent = -1#11 → mantissa = 0#52) :
    UnpackedFloat.pack Format.binary64 (UnpackedFloat.unpack Format.binary64
      (assemble sign exponent mantissa)) = assemble sign exponent mantissa := by
  have exponentBound := exponent.isLt
  have mantissaBound := mantissa.isLt
  simp only [UnpackedFloat.unpack, unpackMantissa_packComponents, unpackExponent_packComponents,
    unpackSign_assemble, ofBitVec_toBitVec]
  split
  · rename_i isTop
    rw [isNumber isTop, isTop]
    rfl
  · rename_i notTop
    have notTopNat : exponent.toNat ≠ 2047 := fun same => notTop (BitVec.eq_of_toNat_eq same)
    split
    · rename_i isZero
      split
      · rename_i noMantissa
        rw [noMantissa, isZero]
        rfl
      · rename_i someMantissa
        have subnormal : mantissa.toNat.log2 ≠ 52 := by
          intro same
          have low := Nat.log2_self_le (n := mantissa.toNat)
            (by simpa [← BitVec.toNat_inj] using someMantissa)
          rw [same] at low
          omega
        simp [UnpackedFloat.pack, isZero, Format.exponentBias, Format.mantissaBits]
        omega
    · have unbiased : ((exponent.toNat : Int) - ↑(2 ^ 10 - 1 + 52) + ↑(2 ^ 10 - 1) + ↑52).toNat =
          exponent.toNat := by omega
      simp only [UnpackedFloat.pack, log2_significand, Format.exponentBias, Format.mantissaBits]
      rw [if_neg (by omega), if_pos trivial]
      congr 1
      · apply BitVec.eq_of_toNat_eq
        simp
        omega
      · apply BitVec.eq_of_toNat_eq
        simp only [BitVec.toNat_ofNat, toNat_significand]
        omega

theorem neg_unpack (isNumber : exponent = -1#11 → mantissa = 0#52) :
    (UnpackedFloat.unpack Format.binary64 (assemble sign exponent mantissa)).neg =
      UnpackedFloat.unpack Format.binary64 (assemble (-sign) exponent mantissa) := by
  simp only [UnpackedFloat.unpack, unpackMantissa_packComponents, unpackExponent_packComponents,
    unpackSign_assemble, ofBitVec_toBitVec]
  split
  · rename_i isTop
    simp [isNumber isTop, UnpackedFloat.neg]
  · split
    · split <;> rfl
    · rfl

theorem isNaN_iff {x : Float} (isBits : x.toBits.toBitVec = assemble sign exponent mantissa) :
    x.isNaN = true ↔ exponent = -1#11 ∧ mantissa ≠ 0#52 := by
  change (UnpackedFloat.unpack Format.binary64 x.toBits.toBitVec).isNaN = true ↔ _
  simp only [isBits, UnpackedFloat.unpack, unpackMantissa_packComponents,
    unpackExponent_packComponents]
  grind [UnpackedFloat.isNaN]

theorem isInf_iff {x : Float} (isBits : x.toBits.toBitVec = assemble sign exponent mantissa) :
    x.isInf = true ↔ exponent = -1#11 ∧ mantissa = 0#52 := by
  change (UnpackedFloat.unpack Format.binary64 x.toBits.toBitVec).isInf = true ↔ _
  simp only [isBits, UnpackedFloat.unpack, unpackMantissa_packComponents,
    unpackExponent_packComponents]
  grind [UnpackedFloat.isInf]

theorem isNegative_iff {x : Float} (isBits : x.toBits.toBitVec = assemble sign exponent mantissa) :
    isNegative x = true ↔ sign = .negative := by
  have exponentBound := exponent.isLt
  have mantissaBound := mantissa.isLt
  have bits : x.toBits.toNat = _ := (congrArg BitVec.toNat isBits).trans (toNat_assemble ..)
  rw [isNegative, decide_eq_true_eq, bits, signBit]
  cases sign <;> simp [Sign.toBitVec] <;> omega

theorem eq_of_toBits {x y : Float} (same : x.toBits.toBitVec = y.toBits.toBitVec) : x = y := by
  obtain ⟨⟨bits, valid⟩⟩ := x
  obtain ⟨⟨otherBits, otherValid⟩⟩ := y
  congr
  exact UInt64.toBitVec_inj.mp same

theorem eq_nan {x : Float} (isNaN : x.isNaN = true) : x = nan := by
  obtain ⟨sign, exponent, mantissa, isBits⟩ := exists_assemble x.toBits.toBitVec
  obtain ⟨isTop, someMantissa⟩ := (isNaN_iff _ _ _ isBits).mp isNaN
  have canonical := x.toModel.valid.eq_packedNaN
  change @unpackExponent Format.binary64 x.toBits.toBitVec = _ →
    @unpackMantissa Format.binary64 x.toBits.toBitVec ≠ _ → x.toBits.toBitVec = _ at canonical
  rw [isBits, unpackExponent_packComponents, unpackMantissa_packComponents] at canonical
  apply eq_of_toBits
  rw [isBits, canonical isTop someMantissa]
  rfl

theorem exists_fields {x : Float} (isNumber : x.isNaN = false) :
    ∃ sign exponent mantissa, x.toBits.toBitVec = assemble sign exponent mantissa ∧
      (exponent = -1#11 → mantissa = 0#52) := by
  obtain ⟨sign, exponent, mantissa, isBits⟩ := exists_assemble x.toBits.toBitVec
  refine ⟨sign, exponent, mantissa, isBits, fun isTop => ?_⟩
  by_contra someMantissa
  rw [(isNaN_iff _ _ _ isBits).mpr ⟨isTop, someMantissa⟩] at isNumber
  cases isNumber

theorem toBits_neg {x : Float} (isBits : x.toBits.toBitVec = assemble sign exponent mantissa)
    (isNumber : exponent = -1#11 → mantissa = 0#52) :
    (-x).toBits.toBitVec = assemble (-sign) exponent mantissa := by
  change UnpackedFloat.pack Format.binary64
    (UnpackedFloat.unpack Format.binary64 x.toBits.toBitVec).neg = _
  rw [isBits, neg_unpack _ _ _ isNumber, pack_unpack _ _ _ isNumber]

theorem neg_neg (x : Float) : -(-x) = x := by
  cases isNaN : x.isNaN with
  | true =>
    rw [eq_nan isNaN]
    decide
  | false =>
    obtain ⟨sign, exponent, mantissa, isBits, isNumber⟩ := exists_fields isNaN
    apply eq_of_toBits
    rw [toBits_neg _ _ _ (toBits_neg _ _ _ isBits isNumber) isNumber, neg_neg_sign, isBits]

theorem classes_of_neg {x : Float} (isNumber : x.isNaN = false) :
    (-x).isNaN = false ∧ (-x).isInf = x.isInf ∧ isNegative (-x) = !isNegative x := by
  obtain ⟨sign, exponent, mantissa, isBits, fields⟩ := exists_fields isNumber
  have negBits := toBits_neg _ _ _ isBits fields
  refine ⟨?_, ?_, ?_⟩
  · rw [Bool.eq_false_iff, ne_eq, isNaN_iff _ _ _ negBits, ← isNaN_iff _ _ _ isBits, isNumber]
    exact Bool.false_ne_true
  · rw [Bool.eq_iff_iff, isInf_iff _ _ _ negBits, isInf_iff _ _ _ isBits]
  · rw [Bool.eq_iff_iff, Bool.not_eq_true', Bool.eq_false_iff, ne_eq, isNegative_iff _ _ _ negBits,
      isNegative_iff _ _ _ isBits]
    cases sign with
    | positive => exact iff_of_true rfl Sign.noConfusion
    | negative => exact iff_of_false Sign.noConfusion (not_not_intro rfl)

theorem eq_infinity {x : Float} (isInf : x.isInf = true) : x = negated infinity (isNegative x) := by
  obtain ⟨sign, exponent, mantissa, isBits⟩ := exists_assemble x.toBits.toBitVec
  obtain ⟨rfl, rfl⟩ := (isInf_iff _ _ _ isBits).mp isInf
  apply eq_of_toBits
  cases sign with
  | negative =>
    rw [(isNegative_iff _ _ _ isBits).mpr rfl, isBits]
    decide
  | positive =>
    have notNegative : isNegative x = false := by
      rw [Bool.eq_false_iff, ne_eq, isNegative_iff _ _ _ isBits]
      intro isNegative
      cases isNegative
    rw [notNegative, isBits]
    decide

/-! ### Doubles as whole numbers -/

def scaled (m : Nat) (e : Int) : Nat := m * 2 ^ (e + 1074).toNat

/-- How often the least positive double fits into one. -/
def one : Nat := scaled 1 0

/-- The multiple behind those that finite doubles are. -/
def limit : Nat := scaled (2 ^ 52) 972

/-- A double that is a number, in multiples of the least positive one. -/
def ticks (x : Float) : Int :=
  let d := ofFloat x
  if d.negative then -scaled d.significand d.exponent else scaled d.significand d.exponent

structure Canonical (m : Nat) (e : Int) : Prop where
  positive : 0 < m
  small : m < 2 ^ 53
  least : -1074 ≤ e
  full : 2 ^ 52 ≤ m ∨ e = -1074

/-- The number with a sign, a significand and an exponent. -/
def signed (sign : Sign) (m : Nat) (e : Int) : Double :=
  match sign with
  | .negative => ⟨true, m, e⟩
  | .positive => ⟨false, m, e⟩

/-- What a double is made of. -/
inductive Parts (x : Float) : Prop where
  | nan (shape : x.toModel.unpack = .notANumber)
  | infinity (sign : Sign) (shape : x.toModel.unpack = .infinity sign)
      (parts : ofFloat x = signed sign (2 ^ 52) 972)
  | zero (sign : Sign) (shape : x.toModel.unpack = .zero sign)
      (parts : ofFloat x = signed sign 0 (-1074))
  | finite (sign : Sign) (m : Nat) (e : Int) (positive : 0 < m)
      (shape : x.toModel.unpack = .finite sign m e positive) (parts : ofFloat x = signed sign m e)
      (canonical : Canonical m e) (bounded : e < 972)

section Fields

variable {x y : Float} {m n : Nat} {e f : Int}

theorem canonical_limit :
    Canonical (2 ^ 52) 972 := ⟨by decide, by decide, by decide, .inl (Nat.le_refl _)⟩

theorem ofFloat_of_fields {sign : Sign} {exponent : BitVec 11} {mantissa : BitVec 52}
    (isBits : x.toBits.toBitVec = assemble sign exponent mantissa) :
    ofFloat x = if exponent.toNat = 0 then signed sign mantissa.toNat (-1074)
      else signed sign (2 ^ 52 + mantissa.toNat) ((exponent.toNat : Int) - 1075) := by
  have exponentBound := exponent.isLt
  have mantissaBound := mantissa.isLt
  have bits : x.toBits.toNat = _ := (congrArg BitVec.toNat isBits).trans (toNat_assemble ..)
  have rest : x.toBits.toNat % leadingBit = mantissa.toNat := by
    rw [bits, leadingBit]
    omega
  have field : x.toBits.toNat / leadingBit % 0x800 = exponent.toNat := by
    rw [bits, leadingBit]
    omega
  have isMinus : x.toBits.toNat / signBit = sign.toBitVec.toNat := by
    rw [bits, signBit]
    omega
  rw [ofFloat, rest, field, isMinus, Nat.add_comm (2 ^ 52)]
  cases sign <;> rfl

theorem parts (x : Float) : Parts x := by
  obtain ⟨sign, exponent, mantissa, isBits⟩ := exists_assemble x.toBits.toBitVec
  have fields := ofFloat_of_fields isBits
  have exponentBound := exponent.isLt
  have mantissaBound := mantissa.isLt
  have shape :
      x.toModel.unpack = UnpackedFloat.unpack Format.binary64 (assemble sign exponent mantissa) :=
    congrArg (UnpackedFloat.unpack Format.binary64) isBits
  simp only [UnpackedFloat.unpack, unpackMantissa_packComponents, unpackExponent_packComponents,
    unpackSign_assemble, ofBitVec_toBitVec] at shape
  by_cases isTop : exponent = -1#11
  · rw [if_pos isTop] at shape
    by_cases noMantissa : mantissa = 0#52
    · rw [if_pos noMantissa] at shape
      rw [isTop, noMantissa] at fields
      exact .infinity sign shape fields
    · rw [if_neg noMantissa] at shape
      exact .nan shape
  · rw [if_neg isTop] at shape
    have notTop : exponent.toNat ≠ 2047 := fun same => isTop (BitVec.eq_of_toNat_eq same)
    by_cases isZero : exponent = 0#11
    · rw [if_pos isZero] at shape
      rw [if_pos (isZero ▸ rfl)] at fields
      by_cases noMantissa : mantissa = 0#52
      · rw [dif_pos noMantissa] at shape
        rw [noMantissa] at fields
        exact .zero sign shape fields
      · rw [dif_neg noMantissa, isZero] at shape
        have positive :
            0 < mantissa.toNat := by
              simpa [BitVec.toNat_pos, BitVec.pos_iff_ne_zero] using noMantissa
        exact .finite sign _ _ positive shape fields ⟨positive, by omega, by decide, .inr rfl⟩
          (by decide)
    · rw [if_neg isZero] at shape
      have notZero : exponent.toNat ≠ 0 := fun same => isZero (BitVec.eq_of_toNat_eq same)
      rw [if_neg notZero, ← toNat_significand] at fields
      have size := toNat_significand mantissa
      have bias : ((Format.binary64.exponentBias : Int) + (52 : Nat)) = 1075 := by decide
      rw [bias] at shape
      exact .finite sign _ _ _ shape fields ⟨by omega, by omega, by omega, .inl (by omega)⟩
        (by omega)

end Fields

section Order

variable {x y : Float} {m n : Nat} {e f t : Int}

theorem scaled_lt_of_exponent (first : Canonical m e) (second : Canonical n f) (less : e < f) :
    scaled m e < scaled n f := by
  have := first.least
  obtain ⟨k, isShift⟩ : ∃ k, (f + 1074).toNat = (e + 1074).toNat + 1 + k :=
    ⟨(f - e).toNat - 1, by omega⟩
  have full : 2 ^ 52 ≤ n := second.full.resolve_right (by omega)
  calc scaled m e < 2 ^ 53 * 2 ^ (e + 1074).toNat :=
        Nat.mul_lt_mul_of_pos_right first.small (Nat.two_pow_pos _)
    _ = 2 ^ 52 * 2 ^ ((e + 1074).toNat + 1) := by rw [Nat.pow_succ]; omega
    _ ≤ n * 2 ^ (f + 1074).toNat :=
        Nat.mul_le_mul full (Nat.pow_le_pow_right (by decide) (by omega))

theorem Canonical.scaled_pos (canonical : Canonical m e) : 0 < scaled m e :=
  Nat.mul_pos canonical.positive (Nat.two_pow_pos _)

theorem Canonical.lt_limit_iff (canonical : Canonical m e) : scaled m e < limit ↔ e < 972 := by
  refine ⟨fun less => ?_, scaled_lt_of_exponent canonical canonical_limit⟩
  by_contra large
  rcases Int.lt_or_eq_of_le (Int.le_of_not_gt large) with larger | rfl
  · exact Nat.lt_asymm less (scaled_lt_of_exponent canonical_limit canonical larger)
  · exact Nat.not_le_of_lt less (Nat.mul_le_mul_right _ (canonical.full.resolve_right (by decide)))

theorem compare_scaled (first : Canonical m e) (second : Canonical n f) :
    (compare e f).then (compare m n) = compare (scaled m e) (scaled n f) := by
  rcases Int.lt_trichotomy e f with less | rfl | greater
  · rw [Int.compare_eq_lt.mpr less, Nat.compare_eq_lt.mpr (scaled_lt_of_exponent first second less)]
    rfl
  · rw [show compare e e = .eq from Std.ReflCmp.compare_self]
    have positive := Nat.two_pow_pos (e + 1074).toNat
    rw [scaled, scaled]
    rcases Nat.lt_trichotomy m n with less | rfl | greater
    · rw [Nat.compare_eq_lt.mpr less,
        Nat.compare_eq_lt.mpr (Nat.mul_lt_mul_of_pos_right less positive)]
      rfl
    · simp only [Std.ReflCmp.compare_self]
      rfl
    · rw [Nat.compare_eq_gt.mpr greater,
        Nat.compare_eq_gt.mpr (Nat.mul_lt_mul_of_pos_right greater positive)]
      rfl
  · rw [Int.compare_eq_gt.mpr greater,
      Nat.compare_eq_gt.mpr (scaled_lt_of_exponent second first greater)]
    rfl

theorem ticks_of_parts {sign : Sign} (parts : ofFloat x = signed sign m e) :
    ticks x = sign.apply (scaled m e) := by
  rw [ticks, parts]
  cases sign <;> rfl

theorem scaled_zero : scaled 0 e = 0 := Nat.zero_mul _

theorem compare_neg_neg (m n : Nat) : compare (-(m : Int)) (-(n : Int)) = (compare m n).swap := by
  rcases Nat.lt_trichotomy m n with less | rfl | greater
  · rw [Nat.compare_eq_lt.mpr less, Int.compare_eq_gt.mpr (by omega)]
    rfl
  · simp only [Std.ReflCmp.compare_self]
    rfl
  · rw [Nat.compare_eq_gt.mpr greater, Int.compare_eq_lt.mpr (by omega)]
    rfl

theorem compare_cast (m n : Nat) : compare (m : Int) (n : Int) = compare m n := by
  rcases Nat.lt_trichotomy m n with less | rfl | greater
  · rw [Nat.compare_eq_lt.mpr less, Int.compare_eq_lt.mpr (by omega)]
  · simp only [Std.ReflCmp.compare_self]
  · rw [Nat.compare_eq_gt.mpr greater, Int.compare_eq_gt.mpr (by omega)]

theorem limit_pos : 0 < limit := Nat.mul_pos (by decide) (Nat.two_pow_pos _)

theorem natAbs_apply (sign : Sign) (n : Nat) : (sign.apply n).natAbs = n := by
  cases sign with
  | negative => exact Int.natAbs_neg n
  | positive => rfl

theorem compare_of_outweighs (sign : Sign) (more : t.natAbs < n) :
    compare (sign.apply n) t = match sign with
      | .negative => .lt
      | .positive => .gt := by
  cases sign with
  | negative => exact Int.compare_eq_lt.mpr (by rw [Sign.apply]; omega)
  | positive => exact Int.compare_eq_gt.mpr (by rw [Sign.apply]; omega)

theorem compare_of_outweighed (sign : Sign) (more : t.natAbs < n) :
    compare t (sign.apply n) = match sign with
      | .negative => .gt
      | .positive => .lt := by
  cases sign with
  | negative => exact Int.compare_eq_gt.mpr (by rw [Sign.apply]; omega)
  | positive => exact Int.compare_eq_lt.mpr (by rw [Sign.apply]; omega)

theorem compare_finite {sx sy : Sign} {mPositive : 0 < m} {nPositive : 0 < n}
    (first : Canonical m e) (second : Canonical n f) :
    UnpackedFloat.compare (.finite sx m e mPositive) (.finite sy n f nPositive) =
      some (compare (sx.apply (scaled m e)) (sy.apply (scaled n f))) := by
  have positiveX := first.scaled_pos
  have positiveY := second.scaled_pos
  cases sx <;> cases sy <;> simp only [Sign.apply]
  · rw [compare_neg_neg, ← compare_scaled first second]
    rfl
  · rw [Int.compare_eq_lt.mpr (by omega)]
    rfl
  · rw [Int.compare_eq_gt.mpr (by omega)]
    rfl
  · rw [compare_cast, ← compare_scaled first second]
    rfl

theorem compare_unpack (xNumber : x.isNaN = false) (yNumber : y.isNaN = false) :
    x.toModel.unpack.compare y.toModel.unpack = some (compare (ticks x) (ticks y)) := by
  have noNumber {z : Float} (number : z.isNaN = false) (shape : z.toModel.unpack = .notANumber) :
      False := by
    rw [Float.isNaN, Float.Model.isNaN, shape] at number
    cases number
  cases parts x with
  | nan shape => exact (noNumber xNumber shape).elim
  | infinity sx shapeX fieldsX =>
    rw [shapeX, ticks_of_parts fieldsX, ← limit]
    cases parts y with
    | nan shape => exact (noNumber yNumber shape).elim
    | infinity sy shapeY fieldsY =>
      rw [shapeY, ticks_of_parts fieldsY, ← limit]
      cases sx <;> cases sy
      · exact congrArg some Std.ReflCmp.compare_self.symm
      · exact congrArg some
          (Int.compare_eq_lt.mpr (by have := limit_pos; simp only [Sign.apply]; omega)).symm
      · exact congrArg some
          (Int.compare_eq_gt.mpr (by have := limit_pos; simp only [Sign.apply]; omega)).symm
      · exact congrArg some Std.ReflCmp.compare_self.symm
    | zero sy shapeY fieldsY =>
      rw [shapeY, ticks_of_parts fieldsY, scaled_zero,
        compare_of_outweighs sx (by rw [natAbs_apply]; exact limit_pos)]
      cases sx <;> rfl
    | finite sy n f nPositive shapeY fieldsY canonical bounded =>
      rw [shapeY, ticks_of_parts fieldsY,
        compare_of_outweighs sx (by rw [natAbs_apply]; exact canonical.lt_limit_iff.mpr bounded)]
      cases sx <;> rfl
  | zero sx shapeX fieldsX =>
    rw [shapeX, ticks_of_parts fieldsX, scaled_zero]
    cases parts y with
    | nan shape => exact (noNumber yNumber shape).elim
    | infinity sy shapeY fieldsY =>
      rw [shapeY, ticks_of_parts fieldsY, ← limit,
        compare_of_outweighed sy (by rw [natAbs_apply]; exact limit_pos)]
      cases sy <;> rfl
    | zero sy shapeY fieldsY =>
      rw [shapeY, ticks_of_parts fieldsY, scaled_zero]
      cases sx <;> cases sy <;> rfl
    | finite sy n f nPositive shapeY fieldsY canonical =>
      rw [shapeY, ticks_of_parts fieldsY,
        compare_of_outweighed sy (by rw [natAbs_apply]; exact canonical.scaled_pos)]
      cases sy <;> rfl
  | finite sx m e mPositive shapeX fieldsX canonicalX bounded =>
    rw [shapeX, ticks_of_parts fieldsX]
    cases parts y with
    | nan shape => exact (noNumber yNumber shape).elim
    | infinity sy shapeY fieldsY =>
      rw [shapeY, ticks_of_parts fieldsY, ← limit,
        compare_of_outweighed sy (by rw [natAbs_apply]; exact canonicalX.lt_limit_iff.mpr bounded)]
      cases sy <;> rfl
    | zero sy shapeY fieldsY =>
      rw [shapeY, ticks_of_parts fieldsY, scaled_zero,
        compare_of_outweighs sx (by rw [natAbs_apply]; exact canonicalX.scaled_pos)]
      cases sx <;> rfl
    | finite sy n f nPositive shapeY fieldsY canonicalY bounded =>
      rw [shapeY, ticks_of_parts fieldsY]
      exact compare_finite canonicalX canonicalY

theorem lt_iff (xNumber : x.isNaN = false) (yNumber : y.isNaN = false) :
    x < y ↔ ticks x < ticks y := by
  change decide (x.toModel.lt y.toModel = true) = true ↔ _
  rw [decide_eq_true_eq, Float.Model.lt, UnpackedFloat.lt, compare_unpack xNumber yNumber,
    beq_iff_eq, Option.some.injEq, Int.compare_eq_lt]

theorem le_iff (xNumber : x.isNaN = false) (yNumber : y.isNaN = false) :
    x ≤ y ↔ ticks x ≤ ticks y := by
  change decide (x.toModel.le y.toModel = true) = true ↔ _
  rw [decide_eq_true_eq, Float.Model.le, UnpackedFloat.le, compare_unpack xNumber yNumber,
    Option.any_some, Int.isLE_compare]

end Order

section Truncation

variable {x : Float} {m : Nat} {e : Int}

theorem isFinite_iff : x.isFinite = true ↔ x.isNaN = false ∧ x.isInf = false := by
  rw [Float.isFinite, Float.isNaN, Float.isInf, Float.Model.isFinite, Float.Model.isNaN,
    Float.Model.isInf]
  cases x.toModel.unpack with
  | notANumber => exact iff_of_false nofun nofun
  | infinity => exact iff_of_false nofun nofun
  | zero => exact iff_of_true rfl ⟨rfl, rfl⟩
  | finite => exact iff_of_true rfl ⟨rfl, rfl⟩

theorem one_pos : 0 < one := Nat.mul_pos Nat.one_pos (Nat.two_pow_pos _)

theorem one_split (least : -1074 ≤ e) (below : e ≤ 0) :
    one = 2 ^ (e + 1074).toNat * 2 ^ e.natAbs := by
  rw [one, scaled, Nat.one_mul, ← Nat.pow_add]
  congr 1
  omega

theorem shift_eq (least : -1074 ≤ e) : shift m e = scaled m e / one := by
  rw [shift, scaled]
  split
  · rw [one_split least (by omega), Nat.mul_comm m, Nat.mul_div_mul_left _ _ (Nat.two_pow_pos _),
      Nat.shiftRight_eq_div_pow]
  · obtain ⟨k, rfl⟩ : ∃ k : Nat, e = k := ⟨e.toNat, by omega⟩
    have factors : 2 ^ ((k : Int) + 1074).toNat = 2 ^ k * one := by
      rw [one, scaled, Nat.one_mul, ← Nat.pow_add]
      congr 1
    rw [factors, ← Nat.mul_assoc, Nat.mul_div_cancel _ one_pos, Nat.shiftLeft_eq,
      Int.natAbs_natCast]

theorem truncToInt_of_parts {sign : Sign} (parts : ofFloat x = signed sign m e)
    (least : -1074 ≤ e) :
    truncToInt x = sign.apply (scaled m e / one : Nat) := by
  rw [truncToInt, parts, ← shift_eq least]
  cases sign <;> rfl

theorem toNat_truncToInt (number : x.isNaN = false) :
    (truncToInt x).toNat = (ticks x).toNat / one := by
  have ofParts {sign : Sign} {m : Nat} {e : Int} (parts : ofFloat x = signed sign m e)
      (least : -1074 ≤ e) :
      (truncToInt x).toNat = (ticks x).toNat / one := by
    rw [truncToInt_of_parts parts least, ticks_of_parts parts]
    cases sign with
    | negative =>
      have below (n : Nat) : (-(n : Int)).toNat = 0 := by omega
      rw [Sign.apply, Sign.apply, below, below, Nat.zero_div]
    | positive => rfl
  cases parts x with
  | nan shape =>
    rw [Float.isNaN, Float.Model.isNaN, shape] at number
    cases number
  | infinity sign shape parts => exact ofParts parts (by decide)
  | zero sign shape parts => exact ofParts parts (by decide)
  | finite sign m e positive shape parts canonical => exact ofParts parts canonical.least

theorem mantissa_shift (em : ExtendedMantissa) (k : Nat) :
    (em >>> k).mantissa = em.mantissa / 2 ^ k := by
  induction k with
  | zero => exact (Nat.div_one _).symm
  | succ k induction =>
    change (em >>> k).mantissa / 2 = _
    rw [induction, Nat.div_div_eq_div_mul, Nat.pow_succ]

theorem roundToInt_eq (sign : Sign) (m : Nat) (e : Int) :
    roundToInt sign m e = sign.apply (shift m e) := by
  rw [roundToInt]
  simp only [decreaseExponent, shiftToExponent, mantissa_shift,
    ExtendedMantissa.ofMantissaAndAccuracy]
  rw [shift]
  congr 2
  split
  · have noLeft : (e - 0).toNat = 0 := by omega
    rw [noLeft, Nat.shiftRight_eq_div_pow, Nat.shiftLeft_zero]
    congr 2
    omega
  · have noRight : (0 - (e - ((e - 0).toNat : Int))).toNat = 0 := by omega
    rw [noRight, Nat.pow_zero, Nat.div_one]
    congr 1
    omega

theorem toNat_toUInt64 (isFinite : x.isFinite = true) (room : (truncToInt x).toNat < 2 ^ 64) :
    x.toUInt64.toNat = (truncToInt x).toNat := by
  have whole : x.toModel.unpack.toInt 0 (UInt64.size - 1) = truncToInt x := by
    cases parts x with
    | nan shape =>
      rw [Float.isFinite, Float.Model.isFinite, shape] at isFinite
      cases isFinite
    | infinity sign shape =>
      rw [Float.isFinite, Float.Model.isFinite, shape] at isFinite
      cases isFinite
    | zero sign shape parts =>
      rw [shape, truncToInt, parts]
      cases sign <;> rfl
    | finite sign m e positive shape parts canonical =>
      rw [shape, UnpackedFloat.toInt, roundToInt_eq, truncToInt, parts]
      cases sign <;> rfl
  change (UInt64.ofNatClamp (x.toModel.unpack.toInt 0 (UInt64.size - 1)).toNat).toNat = _
  rw [whole, UInt64.toNat_ofNatClamp_of_lt room]

end Truncation

section Rational

/-- The rational that a double is. -/
def value (d : Double) : ℚ := (if d.negative then -1 else 1) * (d.significand * 2 ^ d.exponent)

theorem abs_value (d : Double) : |d.value| = d.significand * 2 ^ d.exponent := by
  have magnitude : (0 : ℚ) ≤ d.significand * 2 ^ d.exponent := by positivity
  rw [value]
  split
  · rw [neg_one_mul, abs_neg, abs_of_nonneg magnitude]
  · rw [one_mul, abs_of_nonneg magnitude]

theorem least_exponent (x : Float) : -1074 ≤ (ofFloat x).exponent := by
  simp only [ofFloat]
  split
  · exact Int.le_refl _
  · change -1074 ≤ ((_ : Nat) : Int) - 1075
    omega

theorem value_ofFloat (x : Float) : (ofFloat x).value = ticks x / one := by
  have least := least_exponent x
  have magnitude : ((ofFloat x).significand * 2 ^ (ofFloat x).exponent : ℚ) =
      (scaled (ofFloat x).significand (ofFloat x).exponent : ℚ) / one := by
    have split : (2 : ℚ) ^ ((ofFloat x).exponent + 1074).toNat =
        2 ^ (ofFloat x).exponent * 2 ^ 1074 := by
      rw [← zpow_natCast, Int.toNat_of_nonneg (by omega), zpow_add₀ two_ne_zero]
      rfl
    have unit : (one : ℚ) = 2 ^ 1074 := by
      rw [one, scaled, Nat.one_mul, Nat.cast_pow]
      rfl
    rw [scaled, Nat.cast_mul, Nat.cast_pow, Nat.cast_ofNat, split, unit]
    field_simp
  rw [value, magnitude, ticks]
  split
  · rw [Int.cast_neg, Int.cast_natCast, neg_one_mul, neg_div]
  · rw [Int.cast_natCast, one_mul]

theorem value_neg_iff (x : Float) : (ofFloat x).value < 0 ↔ ticks x < 0 := by
  have positive : (0 : ℚ) < one := Nat.cast_pos.mpr one_pos
  rw [value_ofFloat, div_lt_iff₀ positive, zero_mul, Int.cast_lt_zero]

end Rational

end Unravel.Double
