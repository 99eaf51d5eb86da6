import Unravel.Proofs.Numeral.Exact

/-!
Where doubles are rounded to. No number that a double has room for lies between an exact result and
what it is rounded to (`RoundsTo`), so rounding leaves what is a double as it is (`IsRounded.eq`)
and passes no double (`IsRounded.le`). The doubles of natural numbers, the sums of doubles, the
products of whole ones and the whole parts are rounded in this sense (`isRounded_ofNat`,
`isRounded_add`, `isRounded_mul`, `trunc_spec`).
-/

namespace Unravel.Double

open Float.Model Float.Model.UnpackedFloat

/--
A double without an upper limit on its exponent has room for a multiple of the least positive one.
-/
def Representable (n : Nat) : Prop := ∃ a b, a < 2 ^ 53 ∧ n = a * 2 ^ b

def RoundsTo (n r : Nat) : Prop := ∀ k, Representable k → (k ≤ n → k ≤ r) ∧ (n ≤ k → r ≤ k)

def IsRounded (x : Float) (t : Int) : Prop :=
  x.isNaN = false ∧ ∃ r, RoundsTo t.natAbs r ∧ ticks x = t.sign * (min r limit : Nat)

variable {m n k r b : Nat} {e : Int} {sign : Sign} {x y : Float} {t : Int}

theorem RoundsTo.eq (rounds : RoundsTo n r) (representable : Representable n) : r = n :=
  Nat.le_antisymm ((rounds n representable).2 (Nat.le_refl n))
    ((rounds n representable).1 (Nat.le_refl n))

theorem roundsTo_zero : RoundsTo 0 0 := fun k _ => ⟨id, fun _ => Nat.zero_le k⟩

theorem RoundsTo.refl (n : Nat) : RoundsTo n n := fun _ _ => ⟨id, id⟩

theorem Canonical.representable (canonical : Canonical m e) : Representable (scaled m e) :=
  ⟨m, (e + 1074).toNat, canonical.small, rfl⟩

theorem roundsTo_quotient (full : 2 ^ 52 ≤ m / 2 ^ k ∨ b + k = 0) (low : m / 2 ^ k ≤ r)
    (high : r ≤ m / 2 ^ k + 1) (same : 2 ^ k ∣ m → r = m / 2 ^ k) :
    RoundsTo (m * 2 ^ b) (r * 2 ^ (b + k)) := by
  have step : 2 ^ (b + k) = 2 ^ k * 2 ^ b := by rw [Nat.add_comm, Nat.pow_add]
  have below : m / 2 ^ k * 2 ^ (b + k) ≤ m * 2 ^ b := by
    rw [step, ← Nat.mul_assoc]
    exact Nat.mul_le_mul_right _ (Nat.div_mul_le_self m (2 ^ k))
  rintro _ ⟨a, c, small, rfl⟩
  rcases Nat.lt_or_ge c (b + k) with fine | coarse
  · -- What has more digits behind the last one of the quotient has fewer in front.
    have less : a * 2 ^ c < m / 2 ^ k * 2 ^ (b + k) := by
      have full := full.resolve_right (by omega)
      calc a * 2 ^ c < 2 ^ 53 * 2 ^ c := Nat.mul_lt_mul_of_pos_right small (Nat.two_pow_pos c)
        _ = 2 ^ 52 * 2 ^ (c + 1) := by rw [Nat.pow_succ]; omega
        _ ≤ m / 2 ^ k * 2 ^ (b + k) := Nat.mul_le_mul full (Nat.pow_le_pow_right (by decide) fine)
    refine ⟨fun _ => ?_, fun above => absurd above (by omega)⟩
    exact Nat.le_trans (Nat.le_of_lt less) (Nat.mul_le_mul_right _ low)
  · -- Everything else is a multiple of the last digit of the quotient.
    obtain ⟨d, rfl⟩ := Nat.exists_eq_add_of_le coarse
    have multiple : a * 2 ^ (b + k + d) = a * 2 ^ d * 2 ^ (b + k) := by
      rw [Nat.pow_add, Nat.mul_comm (2 ^ (b + k)), Nat.mul_assoc]
    rw [multiple]
    generalize a * 2 ^ d = c
    constructor
    · intro upTo
      rw [step, ← Nat.mul_assoc] at upTo
      have inside := Nat.le_of_mul_le_mul_right upTo (Nat.two_pow_pos b)
      exact Nat.mul_le_mul_right _
        (Nat.le_trans ((Nat.le_div_iff_mul_le (Nat.two_pow_pos k)).mpr inside) low)
    · intro above
      by_cases divides : 2 ^ k ∣ m
      · rw [same divides]
        exact Nat.le_trans below above
      · rw [step, ← Nat.mul_assoc] at above
        have inside := Nat.le_of_mul_le_mul_right above (Nat.two_pow_pos b)
        have strict : m < c * 2 ^ k := by
          refine Nat.lt_of_le_of_ne inside fun equal => divides ?_
          exact ⟨c, by rw [equal, Nat.mul_comm]⟩
        have less := (Nat.div_lt_iff_lt_mul (Nat.two_pow_pos k)).mpr strict
        exact Nat.mul_le_mul_right _ (by omega)

section Shift

/-- Digits that are all zero are dropped without a trace. -/
theorem shift_of_dvd (divides : 2 ^ k ∣ m) :
    (⟨m, false, false⟩ : ExtendedMantissa) >>> k = ⟨m / 2 ^ k, false, false⟩ := by
  induction k with
  | zero =>
    rw [Nat.pow_zero, Nat.div_one]
    rfl
  | succ k induction =>
    rw [Nat.pow_succ] at divides ⊢
    have even : m / 2 ^ k % 2 = 0 :=
      Nat.mod_eq_zero_of_dvd ((Nat.dvd_div_iff_mul_dvd (dvd_of_mul_right_dvd divides)).mpr divides)
    change ((⟨m, false, false⟩ : ExtendedMantissa) >>> k).shiftRightOne = _
    rw [induction (dvd_of_mul_right_dvd divides), ExtendedMantissa.shiftRightOne, even,
      Nat.div_div_eq_div_mul]
    rfl

theorem roundedMantissa_bounds (em : ExtendedMantissa) :
    em.mantissa ≤ em.roundedMantissa ∧ em.roundedMantissa ≤ em.mantissa + 1 := by
  obtain ⟨m, roundBit, stickyBit⟩ := em
  have parity := Nat.mod_lt m (Nat.zero_lt_two)
  cases roundBit <;> cases stickyBit
  · exact ⟨Nat.le_refl m, Nat.le_succ m⟩
  · exact ⟨Nat.le_refl m, Nat.le_succ m⟩
  · exact ⟨Nat.le_add_right m (m % 2), Nat.add_le_add_left (Nat.le_of_lt_succ parity) m⟩
  · exact ⟨Nat.le_succ m, Nat.le_refl (m + 1)⟩

def excess (m : Nat) (e : Int) : Nat := (max ((m.log2 : Int) + e - 52) (-1074) - e).toNat

theorem targetExponent_eq : Format.binary64.targetExponent (totalExponent m e) =
    max ((m.log2 : Int) + e - 52) (-1074) := by
  have bits : (Format.binary64.mantissaBits : Int) = 53 := rfl
  have least : Format.binary64.minExponent = -1074 := by decide
  rw [Format.targetExponent, totalExponent, bits, least]
  omega

theorem shiftToTargetExponent_eq : shiftToTargetExponent Format.binary64 m e .exact =
    ((⟨m, false, false⟩ : ExtendedMantissa) >>> excess m e, e + (excess m e : Int)) := by
  rw [excess, ← targetExponent_eq]
  rfl

theorem excess_of_lt (small : m < 2 ^ 53) (least : -1074 ≤ e) : excess m e = 0 := by
  have digits : m.log2 ≤ 52 := by
    by_cases isZero : m = 0
    · rw [isZero, Nat.log2_zero]
      decide
    · exact Nat.le_of_lt_succ ((Nat.log2_lt isZero).mpr small)
  rw [excess]
  omega

theorem excess_of_carry (least : -1074 ≤ e) : excess (2 ^ 53) e = 1 := by
  rw [excess, Nat.log2_two_pow]
  omega

/-- Without the digits that there is no room for, all others are there. -/
theorem excess_spec (least : -1074 ≤ e) (full : 52 ≤ m.log2 ∨ e = -1074) :
    m / 2 ^ excess m e < 2 ^ 53 ∧
    (2 ^ 52 ≤ m / 2 ^ excess m e ∨ e + (excess m e : Int) = -1074) := by
  generalize isExcess : excess m e = k
  rw [excess] at isExcess
  constructor
  · rw [Nat.div_lt_iff_lt_mul (Nat.two_pow_pos k), ← Nat.pow_add]
    exact Nat.lt_of_lt_of_le Nat.lt_log2_self (Nat.pow_le_pow_right Nat.two_pos (by omega))
  · by_cases isLeast : e + (k : Int) = -1074
    · exact .inr isLeast
    · have nonzero : m ≠ 0 := by
        rintro rfl
        rw [Nat.log2_zero] at full isExcess
        omega
      refine .inl ((Nat.le_div_iff_mul_le (Nat.two_pow_pos k)).mpr ?_)
      rw [← Nat.pow_add]
      exact Nat.le_trans (Nat.pow_le_pow_right Nat.two_pos (by omega)) (Nat.log2_self_le nonzero)

theorem exists_carried (positive : 0 < r) (small : r ≤ 2 ^ 53) (least : -1074 ≤ e)
    (full : 2 ^ 52 ≤ r ∨ e = -1074) :
    ∃ m f, r / 2 ^ excess r e = m ∧ e + (excess r e : Int) = f ∧ Canonical m f ∧
      scaled m f = scaled r e := by
  rcases Nat.lt_or_eq_of_le small with small | rfl
  · rw [excess_of_lt small least, Nat.pow_zero, Nat.div_one]
    exact ⟨r, e, rfl, by omega, ⟨positive, small, least, full⟩, rfl⟩
  · rw [excess_of_carry least]
    refine ⟨2 ^ 52, e + 1, by decide, rfl, ⟨by decide, by decide, by omega, .inl (Nat.le_refl _)⟩,
      ?_⟩
    have next : (e + 1 + 1074).toNat = (e + 1074).toNat + 1 := by omega
    rw [scaled, scaled, next, Nat.pow_succ]
    omega

theorem exists_roundWithAccuracy (sign : Sign) (positive : 0 < m) (least : -1074 ≤ e)
    (full : 52 ≤ m.log2 ∨ e = -1074) :
    ∃ r f positive, roundWithAccuracy Format.binary64 sign m e .exact = .finite sign r f positive ∧
      Canonical r f ∧ RoundsTo (scaled m e) (scaled r f) := by
  have digits := excess_spec least full
  have bounds := roundedMantissa_bounds ((⟨m, false, false⟩ : ExtendedMantissa) >>> excess m e)
  have same (divides : 2 ^ excess m e ∣ m) :
      ((⟨m, false, false⟩ : ExtendedMantissa) >>> excess m e).roundedMantissa =
        m / 2 ^ excess m e := by
    rw [shift_of_dvd divides]
    rfl
  have nonzero : e + (excess m e : Int) = -1074 → 0 < m / 2 ^ excess m e := by
    intro isLeast
    have none : excess m e = 0 := by omega
    rw [none, Nat.pow_zero, Nat.div_one]
    exact positive
  rw [roundWithAccuracy, shiftToTargetExponent_eq]
  dsimp only
  rw [shiftToTargetExponent_eq]
  rw [mantissa_shift] at bounds
  dsimp only at bounds ⊢
  generalize ((⟨m, false, false⟩ : ExtendedMantissa) >>> excess m e).roundedMantissa =
    r at bounds same ⊢
  obtain ⟨n, f, isQuotient, isExponent, canonical, value⟩ := exists_carried (r := r)
    (e := e + (excess m e : Int)) (by omega) (by omega) (by omega) (by omega)
  rw [mantissa_shift, isQuotient, isExponent]
  refine ⟨n, f, canonical.positive, dif_neg (Nat.ne_of_gt canonical.positive), canonical, ?_⟩
  have exponents : (e + (excess m e : Int) + 1074).toNat = (e + 1074).toNat + excess m e := by omega
  rw [value, scaled, scaled, exponents]
  exact roundsTo_quotient (by omega) bounds.1 bounds.2 same

theorem log2_shiftLeft (nonzero : m ≠ 0) : (m <<< k).log2 = m.log2 + k := by
  have positive := Nat.two_pow_pos k
  rw [Nat.shiftLeft_eq, Nat.log2_eq_iff (Nat.mul_ne_zero nonzero (Nat.ne_of_gt positive)),
    Nat.add_right_comm, Nat.pow_add, Nat.pow_add]
  exact ⟨Nat.mul_le_mul_right _ (Nat.log2_self_le nonzero),
    Nat.mul_lt_mul_of_pos_right Nat.lt_log2_self positive⟩

theorem exists_round (sign : Sign) (positive : 0 < m) (least : -1074 ≤ e) :
    ∃ r f positive, UnpackedFloat.round Format.binary64 sign m e = .finite sign r f positive ∧
      Canonical r f ∧ RoundsTo (scaled m e) (scaled r f) := by
  rw [UnpackedFloat.round, targetExponent_eq, decreaseExponent]
  dsimp only
  generalize isShift : (e - max ((m.log2 : Int) + e - 52) (-1074)).toNat = k
  have digits : (m <<< k).log2 = m.log2 + k := log2_shiftLeft (Nat.ne_of_gt positive)
  have shifted : 0 < m <<< k := by
    rw [Nat.shiftLeft_eq]
    exact Nat.mul_pos positive (Nat.two_pow_pos k)
  obtain ⟨r, f, positive, shape, canonical, rounds⟩ :=
    exists_roundWithAccuracy (e := e - (k : Int)) sign shifted (by omega) (by omega)
  refine ⟨r, f, positive, shape, canonical, ?_⟩
  have exponents : (e + 1074).toNat = k + (e - (k : Int) + 1074).toNat := by omega
  rwa [scaled, Nat.shiftLeft_eq, Nat.mul_assoc, ← Nat.pow_add, ← exponents] at rounds

end Shift

section Pack

theorem unpack_normal (normal : 2 ^ 52 ≤ m) (small : m < 2 ^ 53) (least : -1074 ≤ e)
    (bounded : e < 972) (positive : 0 < m) : UnpackedFloat.unpack Format.binary64
      (assemble sign (.ofNat 11 (e + 1075).toNat) (.ofNat 52 m)) = .finite sign m e positive := by
  have exponent : (BitVec.ofNat 11 (e + 1075).toNat).toNat = (e + 1075).toNat := by
    rw [BitVec.toNat_ofNat]
    omega
  have mantissa : (1#1 ++ BitVec.ofNat 52 m).toNat = m := by
    rw [toNat_significand, BitVec.toNat_ofNat]
    omega
  have notTop : BitVec.ofNat 11 (e + 1075).toNat ≠ -1#11 := by
    intro isTop
    rw [isTop] at exponent
    change 2047 = _ at exponent
    omega
  have notZero : BitVec.ofNat 11 (e + 1075).toNat ≠ 0#11 := by
    intro isZero
    rw [isZero] at exponent
    change 0 = _ at exponent
    omega
  simp only [UnpackedFloat.unpack, unpackMantissa_packComponents, unpackExponent_packComponents,
    unpackSign_assemble, ofBitVec_toBitVec]
  rw [if_neg notTop, if_neg notZero, UnpackedFloat.finite.injEq]
  refine ⟨rfl, mantissa, ?_⟩
  change ((BitVec.ofNat 11 (e + 1075).toNat).toNat : Int) - 1075 = e
  rw [exponent]
  omega

theorem unpack_subnormal (subnormal : m < 2 ^ 52) (positive : 0 < m) :
    UnpackedFloat.unpack Format.binary64 (assemble sign 0#11 (.ofNat 52 m)) =
      .finite sign m (-1074) positive := by
  have mantissa : (BitVec.ofNat 52 m).toNat = m := by
    rw [BitVec.toNat_ofNat]
    omega
  have notZero : BitVec.ofNat 52 m ≠ 0#52 := by
    intro isZero
    rw [isZero] at mantissa
    change 0 = _ at mantissa
    omega
  simp only [UnpackedFloat.unpack, unpackMantissa_packComponents, unpackExponent_packComponents,
    unpackSign_assemble, ofBitVec_toBitVec]
  rw [if_neg (by decide), if_pos trivial, dif_neg notZero, UnpackedFloat.finite.injEq]
  exact ⟨rfl, mantissa, rfl⟩

theorem unpack_pack (canonical : Canonical m e) (positive : 0 < m) :
    (Float.Model.pack (.finite sign m e positive)).unpack =
      if e < 972 then .finite sign m e positive else .infinity sign := by
  have small := canonical.small
  have least := canonical.least
  have bias : (e + (Format.binary64.exponentBias : Int) + (52 : Nat)).toNat = (e + 1075).toNat := by
    rw [show (Format.binary64.exponentBias : Int) = 1023 by decide]
    omega
  change UnpackedFloat.unpack Format.binary64 (UnpackedFloat.pack Format.binary64 _) = _
  rw [UnpackedFloat.pack]
  dsimp only
  rw [bias]
  by_cases bounded : e < 972
  · rw [if_neg (by omega), if_pos bounded]
    by_cases normal : 2 ^ 52 ≤ m
    · have digits : m.log2 + 1 = Format.binary64.mantissaBits :=
        congrArg Nat.succ ((Nat.log2_eq_iff (by omega)).mpr ⟨normal, small⟩)
      rw [if_pos digits]
      exact unpack_normal normal small least bounded positive
    · obtain rfl : e = -1074 := canonical.full.resolve_left normal
      have digits : m.log2 + 1 ≠ Format.binary64.mantissaBits := by
        intro same
        have leading := Nat.log2_self_le (Nat.ne_of_gt positive)
        rw [Nat.succ.inj same] at leading
        exact normal leading
      rw [if_neg digits]
      exact unpack_subnormal (Nat.lt_of_not_le normal) positive
  · rw [if_pos (by omega), if_neg bounded]
    cases sign <;> rfl

theorem isNaN_of_shape {positive : 0 < m} (shape : x.toModel.unpack = .finite sign m e positive) :
    x.isNaN = false := by
  rw [Float.isNaN, Float.Model.isNaN, shape]
  rfl

theorem ticks_of_finite {positive : 0 < m} (shape : x.toModel.unpack = .finite sign m e positive) :
    ticks x = sign.apply (scaled m e) := by
  cases parts x with
  | nan other => cases other.symm.trans shape
  | infinity s other => cases other.symm.trans shape
  | zero s other => cases other.symm.trans shape
  | finite s n f nPositive other fields =>
    cases other.symm.trans shape
    exact ticks_of_parts fields

theorem ticks_of_infinity (shape : x.toModel.unpack = .infinity sign) :
    ticks x = sign.apply limit := by
  cases parts x with
  | nan other => cases other.symm.trans shape
  | infinity s other fields =>
    cases other.symm.trans shape
    exact ticks_of_parts fields
  | zero s other => cases other.symm.trans shape
  | finite s n f nPositive other => cases other.symm.trans shape

theorem ticks_of_zero (shape : x.toModel.unpack = .zero sign) : ticks x = 0 := by
  cases parts x with
  | nan other => cases other.symm.trans shape
  | infinity s other => cases other.symm.trans shape
  | zero s other fields =>
    rw [ticks_of_parts fields, scaled_zero]
    cases s <;> rfl
  | finite s n f nPositive other => cases other.symm.trans shape

theorem ticks_pack (sign : Sign) (canonical : Canonical m e) (positive : 0 < m) :
    (Float.ofModel (.pack (.finite sign m e positive))).isNaN = false ∧
      ticks (.ofModel (.pack (.finite sign m e positive))) =
        sign.apply (min (scaled m e) limit : Nat) := by
  have shape : (Float.ofModel (.pack (.finite sign m e positive))).toModel.unpack = _ :=
    unpack_pack canonical positive
  by_cases bounded : e < 972
  · rw [if_pos bounded] at shape
    refine ⟨isNaN_of_shape shape, ?_⟩
    rw [ticks_of_finite shape, Nat.min_eq_left (Nat.le_of_lt (canonical.lt_limit_iff.mpr bounded))]
  · rw [if_neg bounded] at shape
    constructor
    · rw [Float.isNaN, Float.Model.isNaN, shape]
      rfl
    · rw [ticks_of_infinity shape,
        Nat.min_eq_right (Nat.le_of_not_lt fun less => bounded (canonical.lt_limit_iff.mp less))]

theorem isFinite_of_ticks (number : x.isNaN = false) (bounded : (ticks x).natAbs < limit) :
    x.isFinite = true := by
  rw [Float.isFinite, Float.Model.isFinite]
  cases parts x with
  | nan shape =>
    rw [Float.isNaN, Float.Model.isNaN, shape] at number
    cases number
  | infinity sign shape =>
    rw [ticks_of_infinity shape, natAbs_apply] at bounded
    exact absurd bounded (Nat.lt_irrefl limit)
  | zero sign shape => rw [shape]; rfl
  | finite sign m e positive shape => rw [shape]; rfl

theorem representable_ticks (number : x.isNaN = false) :
    Representable (ticks x).natAbs ∧ (ticks x).natAbs ≤ limit := by
  cases parts x with
  | nan shape =>
    rw [Float.isNaN, Float.Model.isNaN, shape] at number
    cases number
  | infinity sign shape =>
    rw [ticks_of_infinity shape, natAbs_apply]
    exact ⟨canonical_limit.representable, Nat.le_refl _⟩
  | zero sign shape =>
    rw [ticks_of_zero shape]
    exact ⟨⟨0, 0, by decide, rfl⟩, Nat.zero_le _⟩
  | finite sign m e positive shape fields canonical bounded =>
    rw [ticks_of_finite shape, natAbs_apply]
    exact ⟨canonical.representable, Nat.le_of_lt (canonical.lt_limit_iff.mpr bounded)⟩

theorem IsRounded.eq (rounded : IsRounded x t) (representable : Representable t.natAbs)
    (within : t.natAbs ≤ limit) : ticks x = t := by
  obtain ⟨-, r, rounds, value⟩ := rounded
  rw [value, rounds.eq representable, Nat.min_eq_left within, Int.sign_mul_natAbs]

theorem IsRounded.le (rounded : IsRounded x t) (number : y.isNaN = false) (upTo : t ≤ ticks y) :
    ticks x ≤ ticks y := by
  obtain ⟨-, r, rounds, value⟩ := rounded
  obtain ⟨representable, within⟩ := representable_ticks number
  have bounds := rounds _ representable
  rw [value]
  rcases Int.lt_trichotomy t 0 with negative | rfl | positive
  · rw [Int.sign_eq_neg_one_of_neg negative, neg_one_mul]
    omega
  · rw [Int.sign_zero, zero_mul]
    exact upTo
  · rw [Int.sign_eq_one_of_pos positive, one_mul]
    omega

theorem isRounded_zero (sign : Sign) : IsRounded (.ofModel (.pack (.zero sign))) 0 := by
  refine ⟨?_, 0, roundsTo_zero, ?_⟩
  · cases sign <;> decide
  · rw [Int.sign_zero, zero_mul]
    cases sign <;> decide

theorem isRounded_finite (canonical : Canonical m e) (positive : 0 < m) :
    IsRounded (.ofModel (.pack (.finite sign m e positive))) (sign.apply (scaled m e)) := by
  have someTicks := canonical.scaled_pos
  obtain ⟨number, value⟩ := ticks_pack sign canonical positive
  refine ⟨number, scaled m e, (natAbs_apply sign _).symm ▸ .refl _, ?_⟩
  rw [value]
  cases sign with
  | negative => rw [Sign.apply, Sign.apply, Int.sign_eq_neg_one_of_neg (by omega), neg_one_mul]
  | positive => rw [Sign.apply, Sign.apply, Int.sign_eq_one_of_pos (by omega), one_mul]

end Pack

section Naturals

theorem scaled_mul (least : -1074 ≤ e - k) : scaled (m * 2 ^ k) (e - k) = scaled m e := by
  have exponents : (e + 1074).toNat = k + (e - (k : Int) + 1074).toNat := by omega
  rw [scaled, scaled, exponents, Nat.pow_add, Nat.mul_assoc]

theorem scaled_natural : scaled n 0 = n * one := by rw [one, scaled, scaled, Nat.one_mul]

theorem one_eq : scaled (2 ^ 52) (-52) = one := by
  have value := scaled_mul (m := 1) (e := 0) (k := 52) (by decide)
  rwa [Nat.one_mul] at value

theorem shape_of_one :
    (getElem Float.exactlyRepresentablePowersOfTen 0 (by decide)).toModel.unpack =
      .finite .positive (2 ^ 52) (-52) (by decide) := rfl

theorem least_of_one_le (canonical : Canonical m e) (above : one ≤ scaled m e) : -52 ≤ e := by
  by_contra less
  have leading : Canonical (2 ^ 52) (-52) := ⟨by decide, by decide, by decide, .inl (Nat.le_refl _)⟩
  have below := scaled_lt_of_exponent canonical leading (by omega)
  rw [one_eq] at below
  omega

theorem small_lt_limit (small : n ≤ 2 ^ 53) : n * one < limit := by
  have leading : Canonical (2 ^ 52) 1 := ⟨by decide, by decide, by decide, .inl (Nat.le_refl _)⟩
  have value : scaled (2 ^ 52) 1 = 2 ^ 53 * one := by
    rw [one, scaled, scaled, Nat.one_mul,
      show (1 + 1074 : Int).toNat = (0 + 1074 : Int).toNat + 1 from rfl, Nat.pow_succ]
    omega
  calc n * one ≤ 2 ^ 53 * one := Nat.mul_le_mul_right one small
    _ = scaled (2 ^ 52) 1 := value.symm
    _ < limit := scaled_lt_of_exponent leading canonical_limit (by decide)

theorem representable_natural (small : n ≤ 2 ^ 53) : Representable (n * one) := by
  rcases Nat.lt_or_eq_of_le small with small | rfl
  · exact ⟨n, (0 + 1074 : Int).toNat, small, by rw [one, scaled, Nat.one_mul]⟩
  · refine ⟨1, 53 + (0 + 1074 : Int).toNat, by decide, ?_⟩
    rw [one, scaled, Nat.one_mul, Nat.one_mul, Nat.pow_add]

theorem exists_toFloat (positive : 0 < n) (small : n < 2 ^ 53) : ∃ m e positive,
    n.toUInt64.toFloat = .ofModel (.pack (.finite .positive m e positive)) ∧ Canonical m e ∧
      scaled m e = n * one := by
  obtain ⟨m, e, mPositive, shape, canonical, rounds⟩ := exists_round (e := 0) .positive
    positive (by decide)
  rw [scaled_natural] at rounds
  refine ⟨m, e, mPositive, ?_, canonical, rounds.eq (representable_natural (Nat.le_of_lt small))⟩
  have same : n.toUInt64.toNat = n := by
    rw [Nat.toUInt64_eq, UInt64.toNat_ofNat']
    omega
  change Float.ofModel (.pack (UnpackedFloat.normalize _ (n.toUInt64.toNat : Int) 0 .positive)) = _
  rw [same, UnpackedFloat.normalize, Int.compare_eq_gt.mpr (by omega)]
  exact congrArg (Float.ofModel <| Float.Model.pack ·) shape

theorem exists_ofNat (positive : 0 < n) : ∃ r f positive,
    Float.ofNat n = .ofModel (.pack (.finite .positive r f positive)) ∧ Canonical r f ∧
      RoundsTo (n * one) (scaled r f) := by
  change ∃ r f positive, Float.ofScientific n false 0 = _ ∧ _
  rw [Float.ofScientific]
  by_cases small : n < 2 ^ 53
  · -- The double of the number is multiplied by one.
    obtain ⟨m, e, mPositive, isFloat, canonical, value⟩ := exists_toFloat positive small
    have bounded : e < 972 :=
      canonical.lt_limit_iff.mp (value ▸ small_lt_limit (Nat.le_of_lt small))
    have least := least_of_one_le canonical (value ▸ Nat.le_mul_of_pos_left one positive)
    obtain ⟨r, f, rPositive, shape, rounded, rounds⟩ := exists_roundWithAccuracy (m := m * 2 ^ 52)
      (e := e - (52 : Nat)) .positive (by omega) (by omega)
      (.inl ((Nat.le_log2 (by omega)).mpr (Nat.le_mul_of_pos_left _ mPositive)))
    rw [scaled_mul (by omega), value] at rounds
    refine ⟨r, f, rPositive, ?_, rounded, rounds⟩
    have factor : (Float.ofModel (.pack (.finite .positive m e mPositive))).toModel.unpack = _ :=
      unpack_pack canonical mPositive
    rw [if_pos bounded] at factor
    rw [dif_pos ⟨small, by decide⟩, isFloat]
    change Float.ofModel (.pack (UnpackedFloat.mul _ (Float.Model.unpack _)
      (Float.Model.unpack _))) = _
    rw [shape_of_one, factor]
    exact congrArg (Float.ofModel <| Float.Model.pack ·) shape
  · obtain ⟨r, f, rPositive, shape, rounded, rounds⟩ := exists_roundWithAccuracy (m := n * 2 ^ 53)
      (e := 0 - (53 : Nat)) .positive (by omega) (by decide)
      (.inl ((Nat.le_log2 (by omega)).mpr (by omega)))
    rw [scaled_mul (by decide), scaled_natural] at rounds
    refine ⟨r, f, rPositive, ?_, rounded, rounds⟩
    have exponent : ¬(0 : Int) < -((2 ^ Format.binary64.exponentBits : Int) + n.log2) := by
      change ¬(0 : Int) < -(2 ^ 11 + n.log2)
      omega
    rw [dif_neg (fun both => small both.1)]
    change Float.ofModel (.pack (UnpackedFloat.ofScientific Format.binary64 n 0)) = _
    rw [UnpackedFloat.ofScientific, dif_neg (by omega), if_neg (by decide), if_neg exponent,
      if_pos (Int.le_refl 0)]
    simp only [UnpackedFloat.mul, Nat.shiftLeft_eq, Int.toNat_zero, Nat.pow_zero, Nat.mul_one]
    exact congrArg (Float.ofModel <| Float.Model.pack ·) shape

theorem isRounded_ofNat (n : Nat) : IsRounded (Float.ofNat n) (n * one : Nat) := by
  rcases Nat.eq_zero_or_pos n with rfl | positive
  · rw [Nat.zero_mul]
    exact isRounded_zero .positive
  · obtain ⟨r, f, rPositive, shape, canonical, rounds⟩ := exists_ofNat positive
    have ticksPositive := Nat.mul_pos positive one_pos
    obtain ⟨number, value⟩ := ticks_pack .positive canonical rPositive
    rw [shape]
    refine ⟨number, scaled r f, rounds, ?_⟩
    rw [value, Int.sign_eq_one_of_pos (by omega), one_mul]
    rfl

theorem ofNat_exact (small : n ≤ 2 ^ 53) :
    (Float.ofNat n).isFinite = true ∧ ticks (Float.ofNat n) = (n * one : Nat) := by
  have rounded := isRounded_ofNat n
  have below := small_lt_limit small
  have value := rounded.eq (by rw [Int.natAbs_natCast]; exact representable_natural small)
    (by omega)
  exact ⟨isFinite_of_ticks rounded.1 (by omega), value⟩

end Naturals

section Sums

theorem isRounded_normalize (mantissa : Int) (least : -1074 ≤ e) :
    IsRounded (.ofModel (.pack (UnpackedFloat.normalize Format.binary64 mantissa e .positive)))
      (mantissa * (2 ^ (e + 1074).toNat : Nat)) := by
  have size : (mantissa * (2 ^ (e + 1074).toNat : Nat)).natAbs = scaled mantissa.natAbs e := by
    rw [Int.natAbs_mul, Int.natAbs_natCast, scaled]
  have sameSign : (mantissa * (2 ^ (e + 1074).toNat : Nat)).sign = mantissa.sign := by
    rw [Int.sign_mul, Int.sign_natCast_of_ne_zero (Nat.ne_of_gt (Nat.two_pow_pos _)), mul_one]
  rw [IsRounded, size, sameSign]
  rcases Int.lt_trichotomy mantissa 0 with negative | rfl | positive
  · obtain ⟨r, f, rPositive, shape, canonical, rounds⟩ :=
      exists_round (m := (-mantissa).toNat) .negative (by omega) least
    obtain ⟨number, value⟩ := ticks_pack .negative canonical rPositive
    rw [UnpackedFloat.normalize, Int.compare_eq_lt.mpr negative,
      show mantissa.natAbs = (-mantissa).toNat by omega, Int.sign_eq_neg_one_of_neg negative]
    dsimp only
    rw [shape]
    refine ⟨number, scaled r f, rounds, ?_⟩
    rw [value, neg_one_mul]
    rfl
  · rw [Int.natAbs_zero, scaled_zero]
    exact isRounded_zero .positive
  · obtain ⟨r, f, rPositive, shape, canonical, rounds⟩ :=
      exists_round (m := mantissa.toNat) .positive (by omega) least
    obtain ⟨number, value⟩ := ticks_pack .positive canonical rPositive
    rw [UnpackedFloat.normalize, Int.compare_eq_gt.mpr positive,
      show mantissa.natAbs = mantissa.toNat by omega, Int.sign_eq_one_of_pos positive]
    dsimp only
    rw [shape]
    refine ⟨number, scaled r f, rounds, ?_⟩
    rw [value, one_mul]
    rfl

theorem apply_decreased {f : Int} (least : -1074 ≤ f) (within : f ≤ e) :
    sign.apply ((m <<< (e - f).toNat : Nat) : Int) * (2 ^ (f + 1074).toNat : Nat) =
      sign.apply (scaled m e) := by
  have value : (m <<< (e - f).toNat) * 2 ^ (f + 1074).toNat = scaled m e := by
    rw [Nat.shiftLeft_eq, Nat.mul_assoc, ← Nat.pow_add, scaled]
    congr 2
    omega
  rw [← value, Int.natCast_mul]
  cases sign with
  | negative => exact neg_mul ..
  | positive => rfl

theorem isRounded_add (xFinite : x.isFinite = true) (yFinite : y.isFinite = true) :
    IsRounded (x + y) (ticks x + ticks y) := by
  change IsRounded
    (.ofModel (.pack (UnpackedFloat.add Format.binary64 x.toModel.unpack y.toModel.unpack))) _
  rw [Float.isFinite, Float.Model.isFinite] at xFinite yFinite
  cases parts x with
  | nan shape => rw [shape] at xFinite; cases xFinite
  | infinity sx shape => rw [shape] at xFinite; cases xFinite
  | zero sx shapeX =>
    rw [shapeX, ticks_of_zero shapeX, zero_add]
    cases parts y with
    | nan shape => rw [shape] at yFinite; cases yFinite
    | infinity sy shape => rw [shape] at yFinite; cases yFinite
    | zero sy shapeY =>
      rw [shapeY, ticks_of_zero shapeY, UnpackedFloat.add]
      split
      · exact isRounded_zero sx
      · exact isRounded_zero .positive
    | finite sy n f nPositive shapeY fields canonicalY =>
      rw [shapeY, ticks_of_finite shapeY]
      exact isRounded_finite canonicalY nPositive
  | finite sx m e mPositive shapeX fields canonicalX =>
    rw [shapeX, ticks_of_finite shapeX]
    cases parts y with
    | nan shape => rw [shape] at yFinite; cases yFinite
    | infinity sy shape => rw [shape] at yFinite; cases yFinite
    | zero sy shapeY =>
      rw [shapeY, ticks_of_zero shapeY, add_zero]
      exact isRounded_finite canonicalX mPositive
    | finite sy n f nPositive shapeY fields canonicalY =>
      have leastX := canonicalX.least
      have leastY := canonicalY.least
      rw [shapeY, ticks_of_finite shapeY, UnpackedFloat.add]
      dsimp only [decreaseExponent]
      have rounded :=
        isRounded_normalize (e := min e f)
          (sx.apply ((m <<< (e - min e f).toNat : Nat) : Int) +
            sy.apply ((n <<< (f - min e f).toNat : Nat) : Int)) (by omega)
      rwa [add_mul, apply_decreased (by omega) (by omega), apply_decreased (by omega) (by omega)]
        at rounded

theorem ticks_abs (isFinite : x.isFinite = true) :
    x.abs.isNaN = false ∧ ticks x.abs = |ticks x| := by
  change (Float.ofModel (.pack x.toModel.unpack.abs)).isNaN = false ∧
    ticks (.ofModel (.pack x.toModel.unpack.abs)) = _
  rw [Float.isFinite, Float.Model.isFinite] at isFinite
  cases parts x with
  | nan shape => rw [shape] at isFinite; cases isFinite
  | infinity sign shape => rw [shape] at isFinite; cases isFinite
  | zero sign shape =>
    have zero := isRounded_zero .positive
    rw [shape, ticks_of_zero shape]
    exact ⟨zero.1, zero.eq ⟨0, 0, by decide, rfl⟩ (Nat.zero_le _)⟩
  | finite sign m e positive shape fields canonical bounded =>
    obtain ⟨number, value⟩ := ticks_pack .positive canonical positive
    rw [shape, ticks_of_finite shape]
    refine ⟨number, value.trans ?_⟩
    rw [Nat.min_eq_left (Nat.le_of_lt (canonical.lt_limit_iff.mpr bounded)),
      Int.abs_eq_natAbs, natAbs_apply]
    rfl

theorem abs_ge_iff {bound : Float} (isFinite : x.isFinite = true) (number : bound.isNaN = false) :
    x.abs ≥ bound ↔ ticks bound ≤ |ticks x| := by
  obtain ⟨isNumber, magnitude⟩ := ticks_abs isFinite
  rw [ge_iff_le, le_iff number isNumber, magnitude]

end Sums

section Products

variable {a b : Int}

theorem full_of_whole (canonical : Canonical m e) (whole : sign.apply (scaled m e) = a * one) :
    2 ^ 52 ≤ m ∧ -52 ≤ e ∧ scaled m e = a.natAbs * one := by
  have size : scaled m e = a.natAbs * one := by
    rw [← natAbs_apply sign (scaled m e), whole, Int.natAbs_mul, Int.natAbs_natCast]
  have nonzero : 0 < a.natAbs := by
    refine Nat.pos_of_ne_zero fun zero => ?_
    have positive := canonical.scaled_pos
    rw [size, zero, Nat.zero_mul] at positive
    exact Nat.lt_irrefl 0 positive
  have least := least_of_one_le canonical (size ▸ Nat.le_mul_of_pos_left one nonzero)
  exact ⟨canonical.full.resolve_right (by omega), least, size⟩

theorem scaled_mul_scaled {f : Int} (leastX : -52 ≤ e) (leastY : -52 ≤ f)
    (whole : scaled m e = k * one) (wholeToo : scaled n f = r * one) :
    scaled (m * n) (e + f) = k * r * one := by
  obtain ⟨places, isPlaces⟩ : ∃ places, places = (0 + 1074 : Int).toNat := ⟨_, rfl⟩
  have unit : one = 2 ^ places := by rw [one, scaled, Nat.one_mul, isPlaces]
  have exponents : (e + f + 1074).toNat + places = (e + 1074).toNat + (f + 1074).toNat := by omega
  apply Nat.eq_of_mul_eq_mul_right one_pos
  calc scaled (m * n) (e + f) * one = m * n * 2 ^ ((e + f + 1074).toNat + places) := by
        rw [scaled, unit, Nat.mul_assoc, ← Nat.pow_add]
    _ = scaled m e * scaled n f := by
      rw [exponents, Nat.pow_add, scaled, scaled, Nat.mul_mul_mul_comm]
    _ = k * r * (one * one) := by rw [whole, wholeToo, Nat.mul_mul_mul_comm]
    _ = k * r * one * one := (Nat.mul_assoc ..).symm

theorem apply_eq (sign : Sign) (n : Nat) : sign.apply (n : Int) = sign.apply 1 * n := by
  cases sign with
  | negative => exact neg_eq_neg_one_mul _
  | positive => exact (one_mul _).symm

theorem apply_mul_one (first second : Sign) :
    (first * second).apply (1 : Int) = first.apply 1 * second.apply 1 := by
  cases first <;> cases second <;> rfl

theorem sign_of_whole (positive : 0 < n) (whole : sign.apply (n : Int) = a * one) :
    a.sign = sign.apply 1 := by
  have unit := one_pos
  have sameSign := congrArg Int.sign whole
  rw [Int.sign_mul, Int.sign_natCast_of_ne_zero (Nat.ne_of_gt unit), mul_one] at sameSign
  rw [← sameSign]
  cases sign with
  | negative => exact Int.sign_eq_neg_one_of_neg (show -(n : Int) < 0 by omega)
  | positive => exact Int.sign_eq_one_of_pos (show 0 < (n : Int) by omega)

theorem isRounded_mul (xFinite : x.isFinite = true) (yFinite : y.isFinite = true)
    (xWhole : ticks x = a * one) (yWhole : ticks y = b * one) :
    IsRounded (x * y) (a * b * one) := by
  have noTicks {c : Int} (zero : 0 = c * one) : c = 0 := by
    have unit := one_pos
    exact (mul_eq_zero.mp zero.symm).resolve_right (by omega)
  change IsRounded
    (.ofModel (.pack (UnpackedFloat.mul Format.binary64 x.toModel.unpack y.toModel.unpack))) _
  rw [Float.isFinite, Float.Model.isFinite] at xFinite yFinite
  cases parts x with
  | nan shape => rw [shape] at xFinite; cases xFinite
  | infinity sx shape => rw [shape] at xFinite; cases xFinite
  | zero sx shapeX =>
    rw [shapeX, noTicks ((ticks_of_zero shapeX).symm.trans xWhole), zero_mul, zero_mul]
    cases parts y with
    | nan shape => rw [shape] at yFinite; cases yFinite
    | infinity sy shape => rw [shape] at yFinite; cases yFinite
    | zero sy shapeY => rw [shapeY]; exact isRounded_zero _
    | finite sy n f nPositive shapeY => rw [shapeY]; exact isRounded_zero _
  | finite sx m e mPositive shapeX fields canonicalX =>
    cases parts y with
    | nan shape => rw [shape] at yFinite; cases yFinite
    | infinity sy shape => rw [shape] at yFinite; cases yFinite
    | zero sy shapeY =>
      rw [shapeX, shapeY, noTicks ((ticks_of_zero shapeY).symm.trans yWhole), mul_zero, zero_mul]
      exact isRounded_zero _
    | finite sy n f nPositive shapeY fields canonicalY =>
      rw [ticks_of_finite shapeX] at xWhole
      rw [ticks_of_finite shapeY] at yWhole
      obtain ⟨fullX, leastX, sizeX⟩ := full_of_whole canonicalX xWhole
      obtain ⟨fullY, leastY, sizeY⟩ := full_of_whole canonicalY yWhole
      have positive := Nat.mul_pos mPositive nPositive
      obtain ⟨r, g, rPositive, shape, canonical, rounds⟩ :=
        exists_roundWithAccuracy (m := m * n) (e := e + f) (sx * sy) positive (by omega)
          (.inl ((Nat.le_log2 (Nat.ne_of_gt positive)).mpr
            (Nat.le_trans fullX (Nat.le_mul_of_pos_right m nPositive))))
      obtain ⟨number, value⟩ := ticks_pack (sx * sy) canonical rPositive
      rw [shapeX, shapeY, UnpackedFloat.mul, shape]
      refine ⟨number, scaled r g, ?_, ?_⟩
      · rw [Int.natAbs_mul, Int.natAbs_mul, Int.natAbs_natCast,
          ← scaled_mul_scaled leastX leastY sizeX sizeY]
        exact rounds
      · rw [value, apply_eq, apply_mul_one, ← sign_of_whole canonicalX.scaled_pos xWhole,
          ← sign_of_whole canonicalY.scaled_pos yWhole, Int.sign_mul, Int.sign_mul,
          Int.sign_natCast_of_ne_zero (Nat.ne_of_gt one_pos), mul_one]

theorem IsRounded.whole (rounded : IsRounded x (a * one)) (small : a.natAbs ≤ 2 ^ 53) :
    x.isFinite = true ∧ ticks x = a * one := by
  have size : (a * (one : Int)).natAbs = a.natAbs * one := by
    rw [Int.natAbs_mul, Int.natAbs_natCast]
  have representable := representable_natural small
  have below := small_lt_limit small
  rw [← size] at representable below
  have value := rounded.eq representable (Nat.le_of_lt below)
  exact ⟨isFinite_of_ticks rounded.1 (by rwa [value]), value⟩

theorem mul_exact (xFinite : x.isFinite = true) (yFinite : y.isFinite = true)
    (xWhole : ticks x = a * one) (yWhole : ticks y = b * one) (small : (a * b).natAbs ≤ 2 ^ 53) :
    (x * y).isFinite = true ∧ ticks (x * y) = a * b * one :=
  (isRounded_mul xFinite yFinite xWhole yWhole).whole small

theorem add_exact (xFinite : x.isFinite = true) (yFinite : y.isFinite = true)
    (xWhole : ticks x = a * one) (yWhole : ticks y = b * one) (small : (a + b).natAbs ≤ 2 ^ 53) :
    (x + y).isFinite = true ∧ ticks (x + y) = (a + b) * one := by
  have rounded := isRounded_add xFinite yFinite
  rw [xWhole, yWhole, ← add_mul] at rounded
  exact rounded.whole small

end Products

section Whole

theorem ticks_neg (number : x.isNaN = false) : ticks (-x) = -ticks x := by
  obtain ⟨sign, exponent, mantissa, isBits, fields⟩ := exists_fields number
  have parts := ofFloat_of_fields isBits
  have negParts := ofFloat_of_fields (toBits_neg _ _ _ isBits fields)
  have turned (t : Int) : (-sign).apply t = -sign.apply t := by
    cases sign with
    | negative => exact (Int.neg_neg t).symm
    | positive => rfl
  split at parts
  · rename_i isZero
    rw [if_pos isZero] at negParts
    rw [ticks_of_parts parts, ticks_of_parts negParts, turned]
  · rename_i notZero
    rw [if_neg notZero] at negParts
    rw [ticks_of_parts parts, ticks_of_parts negParts, turned]

theorem scaled_of_whole {n : Int} (whole : ticks x = n * one) :
    scaled (ofFloat x).significand (ofFloat x).exponent = n.natAbs * one ∧
      n = if (ofFloat x).negative then -(n.natAbs : Int) else n.natAbs := by
  have unit := one_pos
  rw [ticks] at whole
  have size : scaled (ofFloat x).significand (ofFloat x).exponent = n.natAbs * one := by
    have size := congrArg Int.natAbs whole
    rw [Int.natAbs_mul, Int.natAbs_natCast] at size
    rw [← size]
    split
    · rw [Int.natAbs_neg, Int.natAbs_natCast]
    · rw [Int.natAbs_natCast]
  refine ⟨size, ?_⟩
  rw [size] at whole
  have nonzero : (one : Int) ≠ 0 := by omega
  apply mul_right_cancel₀ nonzero
  rw [← whole, Int.natCast_mul]
  split
  · rw [neg_mul]
  · rfl

theorem truncToInt_of_whole {n : Int} (whole : ticks x = n * one) : truncToInt x = n := by
  obtain ⟨size, value⟩ := scaled_of_whole whole
  have shifted : shift (ofFloat x).significand (ofFloat x).exponent = n.natAbs := by
    rw [shift_eq (least_exponent x), size, Nat.mul_div_cancel _ one_pos]
  rw [truncToInt, shifted]
  exact value.symm

theorem hasFraction_of_whole {n : Int} (whole : ticks x = n * one) : hasFraction x = false := by
  obtain ⟨size, -⟩ := scaled_of_whole whole
  have least := least_exponent x
  rw [hasFraction, Bool.and_eq_false_iff, decide_eq_false_iff_not, decide_eq_false_iff_not,
    not_not, Nat.pow_eq]
  refine or_iff_not_imp_left.mpr fun below => ?_
  rw [not_not] at below
  rw [scaled, one_split least (by omega), Nat.mul_comm (2 ^ _), ← Nat.mul_assoc] at size
  rw [Nat.eq_of_mul_eq_mul_right (Nat.two_pow_pos _) size, Nat.mul_mod_left]

theorem truncToInt_sides (x : Float) :
    (isNegative x = true → truncToInt x ≤ 0) ∧ (isNegative x = false → 0 ≤ truncToInt x) := by
  have side : (ofFloat x).negative = isNegative x := by
    rw [ofFloat]
    split <;> rfl
  rw [truncToInt, side]
  constructor
  · intro isMinus
    rw [isMinus, if_pos rfl]
    omega
  · intro isPlus
    rw [isPlus, if_neg Bool.false_ne_true]
    omega

theorem natAbs_truncToInt_lt (isFinite : x.isFinite = true) (fractional : hasFraction x = true) :
    (truncToInt x).natAbs < 2 ^ 53 := by
  have ofParts {sign : Sign} {m : Nat} {e : Int} (fields : ofFloat x = signed sign m e)
      (small : m < 2 ^ 53) :
      (truncToInt x).natAbs < 2 ^ 53 := by
    have isFraction : (ofFloat x).exponent < 0 := by
      rw [hasFraction, Bool.and_eq_true, decide_eq_true_eq] at fractional
      exact fractional.1
    have size : (truncToInt x).natAbs = shift m e := by
      rw [truncToInt, fields]
      cases sign with
      | negative => exact Int.natAbs_neg _
      | positive => rfl
    have exponent : (signed sign m e).exponent = e := by cases sign <;> rfl
    rw [fields, exponent] at isFraction
    rw [size, shift, if_pos isFraction, Nat.shiftRight_eq_div_pow]
    exact Nat.lt_of_le_of_lt (Nat.div_le_self ..) small
  rw [Float.isFinite, Float.Model.isFinite] at isFinite
  cases parts x with
  | nan shape => rw [shape] at isFinite; cases isFinite
  | infinity sign shape => rw [shape] at isFinite; cases isFinite
  | zero sign shape fields => exact ofParts fields (by decide)
  | finite sign m e positive shape fields canonical => exact ofParts fields canonical.small

/-- A finite double without its fraction has the same whole part. -/
theorem trunc_spec (isFinite : x.isFinite = true) :
    (trunc x).isFinite = true ∧ (truncToInt (trunc x)).toNat = (truncToInt x).toNat := by
  rw [trunc, isFinite, Bool.true_and]
  split
  · rename_i fractional
    have room := natAbs_truncToInt_lt isFinite fractional
    obtain ⟨wholeFinite, value⟩ := ofNat_exact (Nat.le_of_lt room)
    obtain ⟨number, bounded⟩ := isFinite_iff.mp wholeFinite
    have sides := truncToInt_sides x
    rw [withSignOf, negated]
    cases isMinus : isNegative x with
    | true =>
      obtain ⟨negNumber, negBounded, -⟩ := classes_of_neg number
      have below := sides.1 isMinus
      rw [if_pos rfl, toNat_truncToInt negNumber, ticks_neg number, value]
      refine ⟨isFinite_iff.mpr ⟨negNumber, negBounded.trans bounded⟩, ?_⟩
      rw [Int.toNat_of_nonpos (by omega), Nat.zero_div]
      omega
    | false =>
      have above := sides.2 isMinus
      rw [if_neg Bool.false_ne_true, toNat_truncToInt number, value]
      refine ⟨wholeFinite, ?_⟩
      rw [Int.toNat_natCast, Nat.mul_div_cancel _ one_pos]
      omega
  · exact ⟨isFinite, rfl⟩

theorem trunc_isNumber (number : x.isNaN = false) : (trunc x).isNaN = false := by
  cases isFinite : x.isFinite with
  | true => exact (isFinite_iff.mp (trunc_spec isFinite).1).1
  | false => rwa [trunc, isFinite, Bool.false_and, if_neg Bool.false_ne_true]

end Whole

end Unravel.Double
