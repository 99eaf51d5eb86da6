import Unravel.Eval.Method
import Unravel.Proofs.Numeral.Rounded
import Unravel.Proofs.Text.Search

/-!
Where searches begin. Searches in strings begin at the start that they are given, cut to the length
of the string (`Method.position_start`). Searches in arrays begin at the first element, so they find
what they are to find exactly if no element in front of the start is equal to the one that is sought
(`Method.searches_from`).

Methods and properties reach no fault. The methods that index or cut a string or an array are
written once more with checks (`Checked.string?`, `Checked.array?`, `Checked.property?`), and with
two ways to make positions of doubles: exactly, and by comparisons of doubles with the length as a
double and a conversion to a machine word (`Cut`). For all arguments they have the results of the
methods without checks (`Method.in_range`).
-/

namespace Unravel.Method

open Double Text

section Starts

variable {x : Float} {v : Value} {length : Nat}

/-- The start of a search, cut to the length: fractions are dropped, and NaN counts as zero. -/
def startWithin (length : Nat) (v : Value) : Nat :=
  let x := v.toNumber
  if x.isNaN then 0
  else if x.isInf then if isNegative x then 0 else length
  else min (truncToInt x).toNat length

/-- The start of a search that counts from the end if it is negative. -/
def relativeStart (length : Nat) (v : Value) : Nat :=
  let x := v.toNumber
  if x.isNaN then 0
  else if x.isInf then if isNegative x then 0 else length
  else if truncToInt x < 0 then (length + truncToInt x).toNat
  else (truncToInt x).toNat

theorem ticks_zero : ticks 0.0 = 0 := by decide

theorem not_lt_zero (number : x.isNaN = false) (above : 0 ≤ ticks x) : ¬x < 0.0 := by
  rw [lt_iff number (by decide), ticks_zero]
  omega

theorem clamp_of_isFinite (isFinite : x.isFinite = true) :
    clamp x length = min (truncToInt x).toNat length := by
  have number := (isFinite_iff.mp isFinite).1
  rw [clamp]
  by_cases negative : x < 0.0
  · rw [if_pos negative]
    rw [lt_iff number (by decide), ticks_zero] at negative
    rw [toNat_truncToInt number, Int.toNat_of_nonpos (Int.le_of_lt negative),
      Nat.zero_div, Nat.zero_min]
  · rw [if_neg negative, if_pos isFinite]

theorem clamp_of_le (number : x.isNaN = false) (beyond : (length * one : Nat) ≤ ticks x) :
    clamp x length = length := by
  rw [clamp, if_neg (not_lt_zero number (by omega))]
  split
  · refine Nat.min_eq_right ?_
    rw [toNat_truncToInt number]
    exact (Nat.le_div_iff_mul_le Double.one_pos).mpr (by omega)
  · rfl

theorem clamp_le : clamp x length ≤ length := by
  rw [clamp]
  split
  · exact Nat.zero_le length
  · split
    · exact Nat.min_le_right ..
    · exact Nat.le_refl length

theorem position_le {args : List Value} {i default : Nat} (within : default ≤ length) :
    position args i length default ≤ length := by
  rw [position]
  cases given? args i with
  | none => exact within
  | some a => exact clamp_le

theorem relativePosition_le {args : List Value} {i default : Nat} (within : default ≤ length) :
    relativePosition args i length default ≤ length := by
  rw [relativePosition]
  cases given? args i with
  | none => exact within
  | some a => exact clamp_le

theorem clamp_of_isInf (isInf : x.isInf = true) :
    clamp x length = if isNegative x then 0 else length := by
  rw [eq_infinity isInf]
  cases isNegative x with
  | true => exact if_pos (by decide)
  | false => exact (if_neg (by decide)).trans (if_neg (by decide))

theorem clamp_trunc (number : x.isNaN = false) : clamp (trunc x) length = clamp x length := by
  cases isInf : x.isInf with
  | true =>
    have notFinite : x.isFinite = false := by
      rw [Bool.eq_false_iff, ne_eq, isFinite_iff, isInf]
      exact fun both => Bool.noConfusion both.2
    rw [trunc, notFinite, Bool.false_and, if_neg Bool.false_ne_true]
  | false =>
    have isFinite := isFinite_iff.mpr ⟨number, isInf⟩
    obtain ⟨wholeFinite, same⟩ := trunc_spec isFinite
    rw [clamp_of_isFinite wholeFinite, clamp_of_isFinite isFinite, same]

theorem clamp_toInteger (v : Value) (length : Nat) :
    clamp v.toInteger length = startWithin length v := by
  rw [startWithin, Value.toInteger]
  generalize v.toNumber = x
  cases isNaN : x.isNaN with
  | true =>
    have none : (truncToInt 0.0).toNat = 0 := by decide
    rw [if_pos rfl, if_pos rfl, clamp_of_isFinite (by decide), none, Nat.zero_min]
  | false =>
    rw [if_neg Bool.false_ne_true, if_neg Bool.false_ne_true, clamp_trunc isNaN]
    cases isInf : x.isInf with
    | true => rw [if_pos rfl, clamp_of_isInf isInf]
    | false => rw [if_neg Bool.false_ne_true, clamp_of_isFinite (isFinite_iff.mpr ⟨isNaN, isInf⟩)]

theorem position_start (args : List Value) (length : Nat) :
    position args 1 length 0 = startWithin length (args[1]?.getD .undefined) := by
  rw [position, given?]
  cases args[1]? with
  | none => rfl
  | some a =>
    rw [Option.filter_some, Option.getD_some]
    cases a with
    | undefined => rfl
    | _ => exact clamp_toInteger _ length

theorem startWithin_le : startWithin length v ≤ length := clamp_toInteger v length ▸ clamp_le

end Starts

section Arrays

variable {p : Value → Option Bool} {items rest : List Value} {start : Nat} {found : Option Nat}
  {needle : Value}

def HoldsAt (p : Value → Option Bool) (items : List Value) (i : Nat) : Prop :=
  ∃ x, items[i]? = some x ∧ p x = some true

/-- The element at a position is strictly equal to the one that is sought. -/
def EqualAt (items : List Value) (needle : Value) (i : Nat) : Prop :=
  ∃ x, items[i]? = some x ∧ Value.strictEquals? x needle = some true

/-- The element at a position is strictly equal to the one that is sought, or both are NaN. -/
def SameAt (items : List Value) (needle : Value) (i : Nat) : Prop :=
  ∃ x, items[i]? = some x ∧ (Value.strictEquals? x needle = some true ∨
    ∃ a b, x = .number a ∧ needle = .number b ∧ a.isNaN = true ∧ b.isNaN = true)

theorem sameValueZero?_eq_true_iff {x : Value} : sameValueZero? x needle = some true ↔
    Value.strictEquals? x needle = some true ∨
      ∃ a b, x = .number a ∧ needle = .number b ∧ a.isNaN = true ∧ b.isNaN = true := by
  unfold sameValueZero?
  split
  · rename_i a b
    rw [Option.some.injEq, Bool.or_eq_true, Bool.and_eq_true, Value.strictEquals?,
      Option.some.injEq]
    refine or_congr_right ⟨fun both => ⟨a, b, rfl, rfl, both⟩, ?_⟩
    rintro ⟨_, _, ⟨⟩, ⟨⟩, both⟩
    exact both
  · rename_i notNumbers
    refine ⟨.inl, fun either => either.resolve_right ?_⟩
    rintro ⟨a, b, rfl, rfl, -⟩
    exact notNumbers a b rfl rfl

theorem sameAt_iff {i : Nat} : SameAt items needle i ↔ HoldsAt (sameValueZero? · needle) items i :=
  exists_congr fun _ => and_congr_right fun _ => sameValueZero?_eq_true_iff.symm

theorem firstFrom_findIndex? (within : start ≤ items.length) (shape : items.drop start = rest)
    (known : findIndex? p start rest = some found) : FirstFrom (HoldsAt p items) start found := by
  induction rest generalizing start with
  | nil =>
    cases known
    rintro i from_ ⟨x, isElement, -⟩
    have inside := (List.getElem?_eq_some_iff.mp isElement).1
    have atEnd := List.drop_eq_nil_iff.mp shape
    omega
  | cons x rest induction =>
    obtain ⟨inside, next⟩ := Text.drop_eq_cons shape
    have isElement : items[start]? = some x := by rw [← List.head?_drop, shape, List.head?_cons]
    rw [findIndex?] at known
    obtain ⟨holds, isKnown, known⟩ := Option.bind_eq_some_iff.mp known
    cases holds with
    | true =>
      cases known
      exact .here ⟨x, isElement, isKnown⟩
    | false =>
      refine .of_succ ?_ (induction inside next known)
      rintro ⟨y, isOther, holds⟩
      cases isElement.symm.trans isOther
      rw [isKnown] at holds
      cases holds

end Arrays

/-- The value that a search is for. -/
def sought (args : List Value) : Value := args[0]?.getD .undefined

/-- Where a search is to begin. -/
def startOf (args : List Value) : Value := args[1]?.getD .undefined

variable (items : List Value) (s : String) (args : List Value)

theorem indexOf_array {r : Value} (known : array? items "indexOf" args = some r) :
    ∃ found, r = index found ∧ FirstFrom (EqualAt items (sought args)) 0 found := by
  obtain ⟨found, isFound, rfl⟩ := Option.map_eq_some_iff.mp known
  exact ⟨found, rfl, firstFrom_findIndex? (Nat.zero_le _) rfl isFound⟩

theorem includes_array {r : Value} (known : array? items "includes" args = some r) :
    ∃ isFound, r = .bool isFound ∧ (isFound = true ↔ ∃ i, SameAt items (sought args) i) := by
  obtain ⟨found, isFound, rfl⟩ := Option.map_eq_some_iff.mp known
  have first := firstFrom_findIndex? (Nat.zero_le _) rfl isFound
  refine ⟨found.isSome, rfl, ?_⟩
  simp only [first.isSome_iff, Nat.zero_le, true_and, sameAt_iff]
  rfl

theorem search_string : ∃ found, string? s "indexOf" args = some (index found) ∧
    string? s "includes" args = some (.bool found.isSome) ∧
      FirstFrom (OccursAt (units s) (units (textArg args 0)))
        (startWithin (units s).length (startOf args)) found := by
  refine ⟨find? (units s) (units (textArg args 0)) (position args 1 (units s).length 0), rfl, rfl,
    ?_⟩
  rw [position_start]
  exact firstFrom_find? startWithin_le

/-- What searches find, with the law that they begin at their start argument. Searches in arrays
obey it exactly if nothing that counts as equal stands only in front of the start; searches in
strings obey it. -/
theorem searches_from :
    (∀ r, array? items "indexOf" args = some r → ∃ found, r = index found ∧
      FirstFrom (EqualAt items (sought args)) 0 found ∧
      (FirstFrom (EqualAt items (sought args)) (relativeStart items.length (startOf args)) found ↔
        ∀ i < relativeStart items.length (startOf args), ¬EqualAt items (sought args) i)) ∧
    (∀ r, array? items "includes" args = some r → ∃ isFound, r = .bool isFound ∧
      (isFound = true ↔ ∃ i, SameAt items (sought args) i) ∧
      ((isFound = true ↔
        ∃ i, relativeStart items.length (startOf args) ≤ i ∧ SameAt items (sought args) i) ↔
        ((∃ i, SameAt items (sought args) i) →
          ∃ i, relativeStart items.length (startOf args) ≤ i ∧ SameAt items (sought args) i))) ∧
    ∃ found, string? s "indexOf" args = some (index found) ∧
      FirstFrom (OccursAt (units s) (units (textArg args 0)))
        (startWithin (units s).length (startOf args)) found ∧
      ∃ isFound, string? s "includes" args = some (.bool isFound) ∧
        (isFound = true ↔ ∃ i, startWithin (units s).length (startOf args) ≤ i ∧
          OccursAt (units s) (units (textArg args 0)) i) := by
  refine ⟨fun r known => ?_, fun r known => ?_, ?_⟩
  · obtain ⟨found, isResult, first⟩ := indexOf_array items args known
    exact ⟨found, isResult, first, first.from_iff⟩
  · obtain ⟨isFound, isResult, found⟩ := includes_array items args known
    refine ⟨isFound, isResult, found, ?_⟩
    rw [found]
    exact ⟨Iff.mp, fun later => ⟨later, fun ⟨i, _, isSame⟩ => ⟨i, isSame⟩⟩⟩
  · obtain ⟨found, isIndex, isIncluded, first⟩ := search_string s args
    exact ⟨found, isIndex, first, found.isSome, isIncluded, first.isSome_iff⟩

/-- A search in an array that begins with what is sought ends there, whatever its start is. -/
theorem at_once {x needle : Value} {rest start : List Value}
    (equal : Value.strictEquals? x needle = some true) :
    array? (x :: rest) "indexOf" (needle :: start) = some (index (some 0)) ∧
      array? (x :: rest) "includes" (needle :: start) = some (.bool true) := by
  have same : sameValueZero? x needle = some true := sameValueZero?_eq_true_iff.mpr (.inl equal)
  constructor
  · change (findIndex? (Value.strictEquals? · needle) 0 (x :: rest)).map index = _
    rw [findIndex?, equal]
    rfl
  · change (findIndex? (sameValueZero? · needle) 0 (x :: rest)).map (Value.bool ·.isSome) = _
    rw [findIndex?, same]
    rfl

/-- Searches for `1` that are to begin at the second element, in `[1, 2, 1]` and in `[1, 2]`. -/
theorem exists_found_before :
    relativeStart 3 (.number 1.0) = 1 ∧
      array? [.number 1.0, .number 2.0, .number 1.0] "indexOf" [.number 1.0, .number 1.0] =
        some (index (some 0)) ∧
      FirstFrom (EqualAt [.number 1.0, .number 2.0, .number 1.0] (.number 1.0)) 1 (some 2) ∧
      array? [.number 1.0, .number 2.0] "includes" [.number 1.0, .number 1.0] = some (.bool true) ∧
      ¬∃ i, 1 ≤ i ∧ SameAt [.number 1.0, .number 2.0] (.number 1.0) i := by
  have equal : Value.strictEquals? (.number 1.0) (.number 1.0) = some true := by decide
  have different : Value.strictEquals? (.number 2.0) (.number 1.0) = some false := by decide
  refine ⟨by decide, (at_once equal).1, ⟨by decide, ⟨_, rfl, equal⟩, ?_⟩, (at_once equal).2, ?_⟩
  · rintro i from_ less ⟨x, isElement, isEqual⟩
    obtain rfl : i = 1 := by omega
    cases isElement
    rw [different] at isEqual
    cases isEqual
  · rintro ⟨i, from_, x, isElement, isSame⟩
    have inside := (List.getElem?_eq_some_iff.mp isElement).1
    change i < 2 at inside
    obtain rfl : i = 1 := by omega
    cases isElement
    rcases isSame with isEqual | ⟨a, b, isNumber, -, isNaN, -⟩
    · rw [different] at isEqual
      cases isEqual
    · cases isNumber
      exact absurd isNaN (by decide)

end Unravel.Method

/-! ### Methods and properties that stop at a fault -/

namespace Unravel

open Double Method Text Float.Model

structure Cut where
  /-- A double that lies between zero and the length. -/
  word : Float → Nat
  /-- Any double, cut to the range from zero to the length. -/
  within : Float → Nat → Nat
  /-- Any double, which counts from the end when it is negative. -/
  fromEnd : Float → Nat → Nat

namespace Cut

/-- Positions without rounding. -/
def precise : Cut where
  word x := (truncToInt x).toNat
  within := clamp
  fromEnd x length := clamp (if x < 0.0 then Float.ofNat length + x else x) length

/-- Positions by comparison with the length as a double, as machine words. -/
def machine : Cut where
  word x := x.toUInt64.toNat
  within x length :=
    if x < 0.0 then (0.0 : Float).toUInt64.toNat
    else (if Float.ofNat length < x then Float.ofNat length else x).toUInt64.toNat
  fromEnd x length :=
    if x < 0.0 then
      let y := Float.ofNat length + x
      (if y < 0.0 then 0.0 else y).toUInt64.toNat
    else (if Float.ofNat length < x then Float.ofNat length else x).toUInt64.toNat

/-- Positions in texts up to a length are the exact ones. -/
structure Agrees (cut : Cut) (limit : Nat) : Prop where
  word {x : Float} {length : Nat} :
    length ≤ limit → x.isFinite = true → (truncToInt x).toNat < length →
    cut.word x = (truncToInt x).toNat
  within {x : Float} {length : Nat} : length ≤ limit → x.isNaN = false →
    cut.within x length = clamp x length
  fromEnd {x : Float} {length : Nat} : length ≤ limit → x.isNaN = false →
    cut.fromEnd x length = clamp (if x < 0.0 then Float.ofNat length + x else x) length

variable {x : Float} {length : Nat}

theorem precise_agrees (limit : Nat) :
    precise.Agrees limit := ⟨fun _ _ _ => rfl, fun _ _ => rfl, fun _ _ => rfl⟩

theorem toUInt64_of_le (small : length ≤ 2 ^ 53) (number : x.isNaN = false) (above : 0 ≤ ticks x)
    (upTo : ticks x ≤ (length * one : Nat)) : x.toUInt64.toNat = clamp x length := by
  have below := small_lt_limit small
  have isFinite := isFinite_of_ticks number (by omega)
  have cut : (truncToInt x).toNat ≤ length := by
    rw [toNat_truncToInt number]
    exact Nat.div_le_of_le_mul (by rw [Nat.mul_comm]; omega)
  rw [clamp_of_isFinite isFinite, Nat.min_eq_left cut, toNat_toUInt64 isFinite (by omega)]

theorem machine_upTo (small : length ≤ 2 ^ 53) (number : x.isNaN = false) (above : ¬x < 0.0) :
    (if Float.ofNat length < x then Float.ofNat length else x).toUInt64.toNat = clamp x length := by
  obtain ⟨isFinite, value⟩ := ofNat_exact small
  have natural := (isFinite_iff.mp isFinite).1
  rw [lt_iff number (by decide), ticks_zero] at above
  split
  · rename_i beyond
    rw [lt_iff natural number, value] at beyond
    rw [toUInt64_of_le small natural (by omega) (by omega), clamp_of_le natural (by omega),
      clamp_of_le number (by omega)]
  · rename_i upTo
    rw [lt_iff natural number, value] at upTo
    exact toUInt64_of_le small number (by omega) (by omega)

theorem add_negative_infinity (isFinite : x.isFinite = true) : x + -infinity = -infinity := by
  change Float.ofModel (.pack (UnpackedFloat.add Format.binary64 x.toModel.unpack
    (-infinity).toModel.unpack)) = _
  rw [Float.isFinite, Float.Model.isFinite] at isFinite
  have shape : (-infinity).toModel.unpack = .infinity .negative := rfl
  rw [shape]
  cases isX : x.toModel.unpack with
  | notANumber => rw [isX] at isFinite; cases isFinite
  | infinity sign => rw [isX] at isFinite; cases isFinite
  | zero sign => rfl
  | finite sign m e positive => rfl

theorem machine_fromEnd (small : length ≤ 2 ^ 53) (number : x.isNaN = false) (negative : x < 0.0) :
    (if Float.ofNat length + x < 0.0 then 0.0 else Float.ofNat length + x).toUInt64.toNat =
      clamp (Float.ofNat length + x) length := by
  obtain ⟨isFinite, value⟩ := ofNat_exact small
  have natural := (isFinite_iff.mp isFinite).1
  have none : (0.0 : Float).toUInt64.toNat = 0 := by decide
  have ofNegative {y : Float} (below : y < 0.0) :
      (if y < 0.0 then 0.0 else y).toUInt64.toNat = clamp y length := by
    rw [if_pos below, clamp, if_pos below, none]
  cases isInf : x.isInf with
  | true =>
    have isMinus : isNegative x = true := by
      by_contra isPlus
      rw [eq_infinity isInf, Bool.eq_false_iff.mpr isPlus] at negative
      exact absurd negative (by decide)
    rw [eq_infinity isInf, isMinus, negated, if_pos rfl, add_negative_infinity isFinite]
    exact ofNegative (by decide)
  | false =>
    have rounded := isRounded_add isFinite (isFinite_iff.mpr ⟨number, isInf⟩)
    rw [lt_iff number (by decide), ticks_zero] at negative
    have upTo := rounded.le natural (by omega)
    by_cases below : Float.ofNat length + x < 0.0
    · exact ofNegative below
    · rw [if_neg below]
      rw [lt_iff rounded.1 (by decide), ticks_zero] at below
      exact toUInt64_of_le small rounded.1 (by omega) (by omega)

theorem machine_agrees : machine.Agrees (2 ^ 53) where
  word small isFinite within := toNat_toUInt64 isFinite (by omega)
  within {x length} small number := by
    rw [machine]
    dsimp only
    split
    · rename_i negative
      rw [clamp, if_pos negative]
      decide
    · rename_i above
      exact machine_upTo small number above
  fromEnd {x length} small number := by
    rw [machine]
    dsimp only
    split
    · rename_i negative
      exact machine_fromEnd small number negative
    · rename_i above
      exact machine_upTo small number above

end Cut

namespace Checked

/-- The property of a value, indexed after a comparison with the length. -/
def property? (target : Value) (key : String) : Except Fault (Option Value) :=
  match target with
  | .string s =>
    let us := units s
    if key = "length" then .ok (some (.number (Float.ofNat us.length)))
    else
      match indexKey? key with
      | some i => if i < us.length then do return unitsValue? [← item us i]
        else .ok (some .undefined)
      | none => .ok none
  | .array items =>
    if key = "length" then .ok (some (.number (Float.ofNat items.length)))
    else
      match indexKey? key with
      | some i => if i < items.length then do return some (← item items i)
        else .ok (some .undefined)
      | none => .ok none
  | _ => .ok (Method.property? target key)

/-- A position argument, cut to the length. -/
def position (cut : Cut) (args : List Value) (i length default : Nat) : Nat :=
  match given? args i with
  | some a => cut.within a.toInteger length
  | none => default

def relativePosition (cut : Cut) (args : List Value) (i length default : Nat) : Nat :=
  match given? args i with
  | some a => cut.fromEnd a.toInteger length
  | none => default

def split? (s : String) (args : List Value) : Except Fault (Option Value) := do
  let us := units s
  let parts ← match given? args 0 with
    | none => .ok (some [Value.string s])
    | some separator =>
      let separator := units separator.toText
      if separator.isEmpty then .ok ((us.map ([·])).mapM unitsValue?)
      else pieces unitsValue? us separator 0 []
  return parts.map fun parts => .array (match given? args 1 with
    | some limit => parts.take limit.toUInt32.toNat
    | none => parts)

/-- The methods of strings that index or cut the string; all others are as they are. -/
def string? (cut : Cut) (s : String) (name : String) (args : List Value) :
    Except Fault (Option Value) :=
  let us := units s
  let length := us.length
  let needle := units (textArg args 0)
  let at_ := (args[0]?.map Value.toInteger).getD 0.0
  match name with
  | "charAt" =>
    if at_ < 0.0 || at_ ≥ Float.ofNat length then .ok (some (.string ""))
    else do return unitsValue? (← slice us (cut.word at_) (cut.word at_ + 1))
  | "charCodeAt" =>
    if at_ < 0.0 || at_ ≥ Float.ofNat length then .ok (some (.number nan))
    else do return some (.number (Float.ofNat (← item us (cut.word at_)).toNat))
  | "indexOf" => do return some (index (← search us needle (position cut args 1 length 0)))
  | "lastIndexOf" => do
    let limit := match args[1]?.map Value.toNumber with
      | some n => if n.isNaN then length else cut.within (Double.trunc n) length
      | none => length
    return some (index (← searchBack us needle limit))
  | "includes" => do return some (.bool (← search us needle (position cut args 1 length 0)).isSome)
  | "startsWith" => do
    return some (.bool (needle.isPrefixOf (← slice us (position cut args 1 length 0) length)))
  | "endsWith" => do
    return some (.bool (needle.isSuffixOf (← slice us 0 (position cut args 1 length length))))
  | "slice" => do
    let start := relativePosition cut args 0 length 0
    let stop := relativePosition cut args 1 length length
    return unitsValue? (← slice us start (max stop start))
  | "substring" => do
    let a := position cut args 0 length 0
    let b := position cut args 1 length length
    return unitsValue? (← slice us (min a b) (max a b))
  | "substr" => do
    let start := relativePosition cut args 0 length 0
    let rest ← minus length start
    let count := position cut args 1 rest rest
    return unitsValue? (← slice us start (start + count))
  | "split" => split? s args
  | _ => .ok (Method.string? s name args)

/-- The method of arrays that cuts the array; all others are as they are. -/
def array? (cut : Cut) (items : List Value) (name : String) (args : List Value) :
    Except Fault (Option Value) :=
  match name with
  | "slice" => do
    let start := relativePosition cut args 0 items.length 0
    let stop := relativePosition cut args 1 items.length items.length
    return some (.array (← slice items start (max stop start)))
  | _ => .ok (Method.array? items name args)

variable {cut : Cut} {args : List Value} {i length default limit : Nat} {s : String}

theorem toInteger_isNumber (v : Value) : v.toInteger.isNaN = false := by
  rw [Value.toInteger]
  cases isNaN : v.toNumber.isNaN with
  | true => exact (isFinite_iff.mp (show (0.0 : Float).isFinite = true by decide)).1
  | false =>
    rw [if_neg Bool.false_ne_true]
    exact trunc_isNumber isNaN

theorem argument_isNumber (args : List Value) :
    ((args[0]?.map Value.toInteger).getD 0.0).isNaN = false := by
  cases args[0]? with
  | none => exact (isFinite_iff.mp (show (0.0 : Float).isFinite = true by decide)).1
  | some a => exact toInteger_isNumber a

theorem position_eq (agrees : cut.Agrees limit) (small : length ≤ limit) :
    position cut args i length default = Method.position args i length default := by
  rw [position, Method.position]
  cases given? args i with
  | none => rfl
  | some a => exact agrees.within small (toInteger_isNumber a)

theorem relativePosition_eq (agrees : cut.Agrees limit) (small : length ≤ limit) :
    relativePosition cut args i length default = Method.relativePosition args i length default := by
  rw [relativePosition, Method.relativePosition]
  cases given? args i with
  | none => rfl
  | some a => exact agrees.fromEnd small (toInteger_isNumber a)

theorem property?_eq (target : Value) (key : String) :
    property? target key = .ok (Method.property? target key) := by
  cases target with
  | string s =>
    rw [property?, Method.property?]
    split
    · rfl
    · cases indexKey? key with
      | none => rfl
      | some i =>
        dsimp only
        split
        · rename_i within
          rw [item_eq within]
          simp only [Option.bind_eq_bind, Option.bind_some, List.getElem?_eq_getElem within]
          rfl
        · rename_i beyond
          simp only [Option.bind_eq_bind, Option.bind_some,
            List.getElem?_eq_none (Nat.le_of_not_lt beyond)]
  | array items =>
    rw [property?, Method.property?]
    split
    · rfl
    · cases indexKey? key with
      | none => rfl
      | some i =>
        dsimp only
        split
        · rename_i within
          rw [item_eq within]
          simp only [Option.bind_eq_bind, Option.bind_some, List.getElem?_eq_getElem within]
          rfl
        · rename_i beyond
          simp only [Option.bind_eq_bind, Option.bind_some,
            List.getElem?_eq_none (Nat.le_of_not_lt beyond)]
          rfl
  | _ => rfl

theorem split?_eq (s : String) (args : List Value) :
    split? s args = .ok (Method.split? s args) := by
  rw [split?, Method.split?]
  cases given? args 0 with
  | none => rfl
  | some separator =>
    dsimp only
    by_cases isEmpty : (units separator.toText).isEmpty = true
    · rw [if_pos isEmpty, if_pos isEmpty]
      cases ((units s).map ([·])).mapM unitsValue? <;> rfl
    · rw [if_neg isEmpty, if_neg isEmpty]
      rw [List.isEmpty_iff] at isEmpty
      rw [pieces_eq isEmpty (Nat.zero_le _), List.drop_zero]
      cases (splitUnits (units separator.toText) [] 0 (units s)).mapM unitsValue? <;> rfl

theorem slice_max {α : Type} {xs : List α} {start stop : Nat} (first : start ≤ xs.length)
    (second : stop ≤ xs.length) :
    slice xs start (max stop start) = .ok (between xs start stop) := by
  rw [slice_eq (Nat.le_max_right ..) (Nat.max_le.mpr ⟨second, first⟩)]
  rcases Nat.le_total start stop with ordered | reversed
  · rw [Nat.max_eq_left ordered]
  · rw [Nat.max_eq_right reversed, between, between,
      List.drop_eq_nil_of_le (List.length_take_le ..),
      List.drop_eq_nil_of_le (Nat.le_trans (List.length_take_le ..) reversed)]

theorem array?_eq (agrees : cut.Agrees limit) {items : List Value} (small : items.length ≤ limit)
    (name : String) :
    array? cut items name args = .ok (Method.array? items name args) := by
  unfold array?
  split
  · dsimp only
    rw [relativePosition_eq agrees small, relativePosition_eq agrees small,
      slice_max (relativePosition_le (Nat.zero_le _)) (relativePosition_le (Nat.le_refl _))]
    rfl
  · rfl

theorem word_eq (agrees : cut.Agrees limit) (small : length ≤ limit) {x : Float}
    (number : x.isNaN = false) (above : ¬x < 0.0) (below : ¬x ≥ Float.ofNat length) :
    cut.word x = (truncToInt x).toNat ∧ (truncToInt x).toNat < length := by
  have rounded := isRounded_ofNat length
  rw [lt_iff number (by decide), ticks_zero] at above
  change ¬Float.ofNat length ≤ x at below
  rw [le_iff rounded.1 number] at below
  have inside : (truncToInt x).toNat < length := by
    rw [toNat_truncToInt number, Nat.div_lt_iff_lt_mul Double.one_pos]
    by_contra beyond
    exact below (rounded.le number (by omega))
  have bounded := (representable_ticks rounded.1).2
  exact ⟨agrees.word small (isFinite_of_ticks number (by omega)) inside, inside⟩

theorem between_one {α : Type} {xs : List α} (within : i < xs.length) :
    between xs i (i + 1) = [xs[i]] := by
  rw [between, List.drop_take, Nat.add_sub_cancel_left, List.drop_eq_getElem_cons within]
  rfl

theorem charAt_eq (agrees : cut.Agrees limit) (small : (units s).length ≤ limit) :
    string? cut s "charAt" args = .ok (Method.string? s "charAt" args) := by
  have number := argument_isNumber args
  simp only [string?, Method.string?]
  generalize (args[0]?.map Value.toInteger).getD 0.0 = x at number ⊢
  by_cases outside : (decide (x < 0.0) || decide (x ≥ Float.ofNat (units s).length)) = true
  · rw [if_pos outside, if_pos outside]
  · rw [if_neg outside, if_neg outside]
    rw [Bool.or_eq_true, decide_eq_true_eq, decide_eq_true_eq, not_or] at outside
    obtain ⟨same, inside⟩ := word_eq agrees small number outside.1 outside.2
    rw [same, slice_eq (Nat.le_succ _) inside, between_one inside, List.getElem?_eq_getElem inside]
    rfl

theorem charCodeAt_eq (agrees : cut.Agrees limit) (small : (units s).length ≤ limit) :
    string? cut s "charCodeAt" args = .ok (Method.string? s "charCodeAt" args) := by
  have number := argument_isNumber args
  simp only [string?, Method.string?]
  generalize (args[0]?.map Value.toInteger).getD 0.0 = x at number ⊢
  by_cases outside : (decide (x < 0.0) || decide (x ≥ Float.ofNat (units s).length)) = true
  · rw [if_pos outside, if_pos outside]
    rfl
  · rw [if_neg outside, if_neg outside]
    rw [Bool.or_eq_true, decide_eq_true_eq, decide_eq_true_eq, not_or] at outside
    obtain ⟨same, inside⟩ := word_eq agrees small number outside.1 outside.2
    rw [same, item_eq inside, List.getElem?_eq_getElem inside]
    rfl

theorem lastIndexOf_eq (agrees : cut.Agrees limit) (small : (units s).length ≤ limit) :
    string? cut s "lastIndexOf" args = .ok (Method.string? s "lastIndexOf" args) := by
  simp only [string?, Method.string?, searchBack_eq]
  cases args[1]?.map Value.toNumber with
  | none => rfl
  | some x =>
    dsimp only
    cases isNaN : x.isNaN with
    | true => rfl
    | false =>
      rw [if_neg Bool.false_ne_true, if_neg Bool.false_ne_true,
        agrees.within small (trunc_isNumber isNaN), clamp_trunc isNaN]
      rfl

theorem substring_eq (agrees : cut.Agrees limit) (small : (units s).length ≤ limit) :
    string? cut s "substring" args = .ok (Method.string? s "substring" args) := by
  have first : Method.position args 0 (units s).length 0 ≤ (units s).length :=
    position_le (Nat.zero_le _)
  have second : Method.position args 1 (units s).length (units s).length ≤ (units s).length :=
    position_le (Nat.le_refl _)
  simp only [string?, position_eq agrees small]
  rw [slice_eq (by omega) (by omega)]
  rfl

theorem substr_eq (agrees : cut.Agrees limit) (small : (units s).length ≤ limit) :
    string? cut s "substr" args = .ok (Method.string? s "substr" args) := by
  have first : Method.relativePosition args 0 (units s).length 0 ≤ (units s).length :=
    relativePosition_le (Nat.zero_le _)
  have count :
      Method.position args 1 ((units s).length - Method.relativePosition args 0 (units s).length 0)
        ((units s).length - Method.relativePosition args 0 (units s).length 0) ≤
          (units s).length - Method.relativePosition args 0 (units s).length 0 :=
          position_le (Nat.le_refl _)
  simp only [string?, Method.string?, relativePosition_eq agrees small, minus_eq first]
  change (do return unitsValue? (← slice (units s) _ (_ + position cut args 1 (_ - _) (_ - _)))) = _
  rw [position_eq agrees (Nat.le_trans (Nat.sub_le ..) small),
    slice_eq (Nat.le_add_right ..) (by omega), between, List.drop_take, Nat.add_sub_cancel_left]
  rfl

theorem string?_eq (agrees : cut.Agrees limit) (small : (units s).length ≤ limit) (name : String) :
    string? cut s name args = .ok (Method.string? s name args) := by
  unfold string?
  dsimp only
  split
  · exact charAt_eq agrees small
  · exact charCodeAt_eq agrees small
  · rw [position_eq agrees small, search_eq (position_le (Nat.zero_le _))]
    rfl
  · exact lastIndexOf_eq agrees small
  · rw [position_eq agrees small, search_eq (position_le (Nat.zero_le _))]
    rfl
  · rw [position_eq agrees small, slice_tail (position_le (Nat.zero_le _))]
    rfl
  · rw [position_eq agrees small, slice_eq (Nat.zero_le _) (position_le (Nat.le_refl _))]
    rfl
  · rw [relativePosition_eq agrees small, relativePosition_eq agrees small,
      slice_max (relativePosition_le (Nat.zero_le _)) (relativePosition_le (Nat.le_refl _))]
    rfl
  · exact substring_eq agrees small
  · exact substr_eq agrees small
  · exact split?_eq s args
  · rfl

end Checked

namespace Method

/-- Methods and properties index no text outside of it, cut it at no positions that are out of order
or out of range, take no difference below zero, and lose no cursor, whatever their arguments are.
The same is true with positions as machine words in all texts whose lengths are doubles. -/
theorem in_range (s : String) (items : List Value) (name : String) (args : List Value)
    (target : Value) (key : String) :
    (Checked.string? .precise s name args = .ok (string? s name args) ∧
      Checked.array? .precise items name args = .ok (array? items name args) ∧
      Checked.property? target key = .ok (property? target key)) ∧
    ((units s).length ≤ 2 ^ 53 → Checked.string? .machine s name args = .ok (string? s name args)) ∧
    (items.length ≤ 2 ^ 53 → Checked.array? .machine items name args =
      .ok (array? items name args)) :=
  ⟨⟨Checked.string?_eq (Cut.precise_agrees _) (Nat.le_refl _) name,
      Checked.array?_eq (Cut.precise_agrees _) (Nat.le_refl _) name,
      Checked.property?_eq target key⟩,
    fun small => Checked.string?_eq Cut.machine_agrees small name,
    fun small => Checked.array?_eq Cut.machine_agrees small name⟩

theorem exists_in_range :
    Checked.string? .machine "ab" "slice" [.number (-1.0)] =
      .ok (string? "ab" "slice" [.number (-1.0)]) ∧
      Checked.array? .machine [.null] "slice" [.number (-1.0)] =
        .ok (array? [.null] "slice" [.number (-1.0)]) :=
  have both := (in_range "ab" [.null] "slice" [.number (-1.0)] .null "length").2
  ⟨both.1 (by decide), both.2 (by decide)⟩

end Method

end Unravel
