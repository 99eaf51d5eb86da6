import Unravel.Text.Escape

/-!
What the contents of JSON strings spell. They are a sequence of elements (`Text.Element`), each of
which stands for one or two code units. They are decoded exactly if the code units of all of them
together are those of a string (`Text.unescape?_eq_some_iff`), so that two escapes may make up one
character.
-/

namespace Unravel.Text

variable {a b c d : Char} {n : Nat} {u : UInt16} {us : List UInt16} {cs : List Char} {t : String}

/-! ### The grammar -/

/-- A hexadecimal digit and its value. -/
inductive HexDigit : Char → Nat → Prop where
  | decimal {c : Char} :
      '0'.toNat ≤ c.toNat → c.toNat ≤ '9'.toNat → HexDigit c (c.toNat - '0'.toNat)
  | lower {c : Char} :
      'a'.toNat ≤ c.toNat → c.toNat ≤ 'f'.toNat → HexDigit c (c.toNat - 'a'.toNat + 10)
  | upper {c : Char} :
      'A'.toNat ≤ c.toNat → c.toNat ≤ 'F'.toNat → HexDigit c (c.toNat - 'A'.toNat + 10)

inductive Element : List Char → List UInt16 → Prop where
  | plain {c : Char} : c ≠ '"' → c ≠ '\\' → 0x20 ≤ c.toNat → Element [c] (charUnits c)
  | quote : Element ['\\', '"'] [0x22]
  | backslash : Element ['\\', '\\'] [0x5c]
  | slash : Element ['\\', '/'] [0x2f]
  | backspace : Element ['\\', 'b'] [0x08]
  | formFeed : Element ['\\', 'f'] [0x0c]
  | lineFeed : Element ['\\', 'n'] [0x0a]
  | carriageReturn : Element ['\\', 'r'] [0x0d]
  | tab : Element ['\\', 't'] [0x09]
  | unit {a b c d : Char} {w x y z : Nat} :
      HexDigit a w → HexDigit b x → HexDigit c y → HexDigit d z →
      Element ['\\', 'u', a, b, c, d] [.ofNat (((w * 16 + x) * 16 + y) * 16 + z)]

/-- The contents of a JSON string with the code units that they stand for. -/
inductive Contents : List Char → List UInt16 → Prop where
  | nil : Contents [] []
  | cons {element rest : List Char} {us more : List UInt16} :
      Element element us → Contents rest more →
      Contents (element ++ rest) (us ++ more)

/-! ### Escapes -/

theorem digitValue?_eq_some_iff : Radix.digitValue? 16 c = some n ↔ HexDigit c n := by
  have zero : '0'.toNat = 48 := rfl
  have nine : '9'.toNat = 57 := rfl
  have a : 'a'.toNat = 97 := rfl
  have f : 'f'.toNat = 102 := rfl
  have z : 'z'.toNat = 122 := rfl
  have A : 'A'.toNat = 65 := rfl
  have F : 'F'.toNat = 70 := rfl
  have Z : 'Z'.toNat = 90 := rfl
  constructor
  · intro digit
    rw [Radix.digitValue?, Option.filter_eq_some_iff, decide_eq_true_eq] at digit
    obtain ⟨digit, small⟩ := digit
    split at digit
    · cases digit
      exact .decimal (by omega) (by omega)
    · split at digit
      · cases digit
        exact .lower (by omega) (by omega)
      · split at digit
        · cases digit
          exact .upper (by omega) (by omega)
        · cases digit
  · rintro (⟨low, high⟩ | ⟨low, high⟩ | ⟨low, high⟩)
    · rw [Radix.digitValue?, if_pos (by omega), Option.filter_some, if_pos (by simp; omega)]
    · rw [Radix.digitValue?, if_neg (by omega), if_pos (by omega), Option.filter_some,
        if_pos (by simp; omega)]
    · rw [Radix.digitValue?, if_neg (by omega), if_neg (by omega), if_pos (by omega),
        Option.filter_some, if_pos (by simp; omega)]

theorem hexUnit?_eq_some_iff :
    hexUnit? a b c d = some u ↔ ∃ w x y z, HexDigit a w ∧ HexDigit b x ∧ HexDigit c y ∧
      HexDigit d z ∧ u = .ofNat (((w * 16 + x) * 16 + y) * 16 + z) := by
  have sum (w x y z : Nat) : (w * 16 + x) * 256 + (y * 16 + z) =
      ((w * 16 + x) * 16 + y) * 16 + z := by omega
  simp only [hexUnit?, bind, Option.bind_eq_some_iff, digitValue?_eq_some_iff, pure,
    Option.some.injEq, sum]
  constructor
  · rintro ⟨w, first, x, second, y, third, z, fourth, rfl⟩
    exact ⟨w, x, y, z, first, second, third, fourth, rfl⟩
  · rintro ⟨w, x, y, z, first, second, third, fourth, rfl⟩
    exact ⟨w, first, x, second, y, third, z, fourth, rfl⟩

theorem element_of_shortEscape? (known : shortEscape? c = some u) : Element ['\\', c] [u] := by
  unfold shortEscape? at known
  split at known <;> cases known <;> constructor

theorem exists_element (u : UInt16) : ∃ element, Element element [u] := by
  have digit (n : Nat) (small : n < 16) : HexDigit (Radix.digitChar n) n := by
    have each : ∀ n : Fin 16, Radix.digitValue? 16 (Radix.digitChar n) = some n.val := by decide
    exact digitValue?_eq_some_iff.mp (each ⟨n, small⟩)
  have small := u.toNat_lt
  have digits : ((u.toNat / 4096 * 16 + u.toNat / 256 % 16) * 16 + u.toNat / 16 % 16) * 16 +
      u.toNat % 16 = u.toNat := by
    omega
  have element := Element.unit (digit (u.toNat / 4096) (by omega))
    (digit (u.toNat / 256 % 16) (by omega)) (digit (u.toNat / 16 % 16) (by omega))
    (digit (u.toNat % 16) (by omega))
  rw [digits, UInt16.ofNat_toNat] at element
  exact ⟨_, element⟩

/-! ### Contents -/

theorem exists_contents (us : List UInt16) : ∃ cs, Contents cs us := by
  induction us with
  | nil => exact ⟨[], .nil⟩
  | cons u us induction =>
    obtain ⟨element, first⟩ := exists_element u
    obtain ⟨rest, others⟩ := induction
    exact ⟨element ++ rest, .cons first others⟩

theorem unescapedUnits?_short (known : shortEscape? c = some u) (rest : List Char) :
    unescapedUnits? ('\\' :: c :: rest) = (unescapedUnits? rest).map (u :: ·) := by
  have notUnit : c ≠ 'u' := by
    rintro rfl
    cases known
  rw [unescapedUnits?.eq_3 c rest (fun _ _ _ _ _ isUnit _ => notUnit isUnit), known]
  cases unescapedUnits? rest <;> rfl

theorem Element.unescapedUnits?_append (element : Element cs us) (rest : List Char) :
    unescapedUnits? (cs ++ rest) = (unescapedUnits? rest).map (us ++ ·) := by
  cases element with
  | plain notQuote notBackslash visible =>
    rw [List.singleton_append, unescapedUnits?.eq_4 _ _ (fun _ _ _ _ _ is _ => notBackslash is)
      (fun _ _ is _ => notBackslash is), if_neg (by simp [notQuote, notBackslash]; omega)]
  | unit first second third fourth =>
    have spelled := hexUnit?_eq_some_iff.mpr ⟨_, _, _, _, first, second, third, fourth, rfl⟩
    simp only [List.cons_append, List.nil_append, unescapedUnits?, spelled]
    cases unescapedUnits? rest <;> rfl
  | _ => exact unescapedUnits?_short rfl rest

theorem contents_of_unescapedUnits? (spelled : unescapedUnits? cs = some us) : Contents cs us := by
  fun_induction unescapedUnits? cs generalizing us with
  | case1 =>
    cases spelled
    exact .nil
  | case2 a b c d rest induction =>
    simp only [bind, Option.bind_eq_some_iff, pure, Option.some.injEq] at spelled
    obtain ⟨u, isUnit, more, spelled, rfl⟩ := spelled
    obtain ⟨_, _, _, _, first, second, third, fourth, rfl⟩ := hexUnit?_eq_some_iff.mp isUnit
    exact .cons (.unit first second third fourth) (induction spelled)
  | case3 c rest _ induction =>
    simp only [bind, Option.bind_eq_some_iff, pure, Option.some.injEq] at spelled
    obtain ⟨u, known, more, spelled, rfl⟩ := spelled
    exact .cons (element_of_shortEscape? known) (induction spelled)
  | case4 => cases spelled
  | case5 c rest _ _ allowed induction =>
    obtain ⟨more, others, rfl⟩ := Option.map_eq_some_iff.mp spelled
    simp only [Bool.or_eq_true, decide_eq_true_eq, not_or, Nat.not_lt] at allowed
    exact .cons (.plain allowed.1.1 allowed.1.2 allowed.2) (induction others)

theorem unescapedUnits?_eq_some_iff : unescapedUnits? cs = some us ↔ Contents cs us := by
  refine ⟨contents_of_unescapedUnits?, fun contents => ?_⟩
  induction contents with
  | nil => rfl
  | cons element _ induction => rw [element.unescapedUnits?_append, induction, Option.map_some]

/-! ### Code units -/

theorem toNat_ofNat_of_valid (valid : n.isValidChar) : (Char.ofNat n).toNat = n := by
  rw [Char.ofNat, dif_pos valid]
  rfl

theorem charUnits_ofNat_toNat (notHigh : isHighSurrogate u = false)
    (notLow : isLowSurrogate u = false) :
    charUnits (Char.ofNat u.toNat) = [u] := by
  have small := u.toNat_lt
  simp only [isHighSurrogate, isLowSurrogate, Bool.and_eq_false_iff, decide_eq_false_iff_not,
    UInt16.le_iff_toNat_le, UInt16.lt_iff_toNat_lt, UInt16.reduceToNat] at notHigh notLow
  have valid : u.toNat.isValidChar := by
    simp only [Nat.isValidChar]
    omega
  rw [charUnits, toNat_ofNat_of_valid valid, if_pos (by omega), UInt16.ofNat_toNat]

theorem charUnits_ofSurrogates {v : UInt16} (isHigh : isHighSurrogate u = true)
    (isLow : isLowSurrogate v = true) :
    charUnits (Char.ofNat (0x10000 + (u.toNat - 0xd800) * 0x400 + (v.toNat - 0xdc00))) =
      [u, v] := by
  simp only [isHighSurrogate, isLowSurrogate, Bool.and_eq_true, decide_eq_true_eq,
    UInt16.le_iff_toNat_le, UInt16.lt_iff_toNat_lt, UInt16.reduceToNat] at isHigh isLow
  have valid : (0x10000 + (u.toNat - 0xd800) * 0x400 + (v.toNat - 0xdc00)).isValidChar := by
    simp only [Nat.isValidChar]
    omega
  have high :
      0xd800 + (0x10000 + (u.toNat - 0xd800) * 0x400 + (v.toNat - 0xdc00) - 0x10000) / 0x400 =
        u.toNat := by
    omega
  have low :
      0xdc00 + (0x10000 + (u.toNat - 0xd800) * 0x400 + (v.toNat - 0xdc00) - 0x10000) % 0x400 =
        v.toNat := by
    omega
  rw [charUnits, toNat_ofNat_of_valid valid, if_neg (by omega), high, low, UInt16.ofNat_toNat,
    UInt16.ofNat_toNat]

theorem eq_of_charsOfUnits? (spelled : charsOfUnits? us = some cs) : us = cs.flatMap charUnits := by
  fun_induction charsOfUnits? us generalizing cs with
  | case1 =>
    cases spelled
    rfl
  | case2 u isHigh v rest isLow =>
    rename_i induction
    obtain ⟨others, isSpelled, rfl⟩ := Option.map_eq_some_iff.mp spelled
    rw [List.flatMap_cons, charUnits_ofSurrogates isHigh isLow, ← induction isSpelled]
    rfl
  | case3 => cases spelled
  | case4 => cases spelled
  | case5 => cases spelled
  | case6 u rest notHigh notLow induction =>
    obtain ⟨others, isSpelled, rfl⟩ := Option.map_eq_some_iff.mp spelled
    rw [List.flatMap_cons, charUnits_ofNat_toNat (Bool.eq_false_iff.mpr notHigh)
      (Bool.eq_false_iff.mpr notLow), ← induction isSpelled]
    rfl

theorem ofUnits?_eq_some_iff : ofUnits? us = some t ↔ us = units t := by
  refine ⟨fun spelled => ?_, fun same => same ▸ ofUnits?_units t⟩
  obtain ⟨cs, isSpelled, rfl⟩ := Option.map_eq_some_iff.mp spelled
  rw [units, String.toList_ofList]
  exact eq_of_charsOfUnits? isSpelled

/-- A text is decoded to a string exactly if it is the contents of a JSON string whose code units
are those of the string, and every string is spelled by such contents. -/
theorem unescape?_eq_some_iff (t : String) :
    (∀ s, unescape? s = some t ↔ Contents s.toList (units t)) ∧
    ∃ s : String, Contents s.toList (units t) := by
  constructor
  · intro s
    rw [unescape?, Option.bind_eq_some_iff]
    simp only [ofUnits?_eq_some_iff, unescapedUnits?_eq_some_iff]
    constructor
    · rintro ⟨_, contents, rfl⟩
      exact contents
    · exact fun contents => ⟨_, contents, rfl⟩
  · obtain ⟨cs, contents⟩ := exists_contents (units t)
    exact ⟨String.ofList cs, by rwa [String.toList_ofList]⟩

/-! ### Unicode escapes in a text -/

inductive UnicodeEscape : List Char → Prop where
  | unit {a b c d : Char} {w x y z : Nat} :
      HexDigit a w → HexDigit b x → HexDigit c y → HexDigit d z →
      UnicodeEscape ['\\', 'u', a, b, c, d]

def ContainsEscape (cs : List Char) : Prop := ∃ escape, UnicodeEscape escape ∧ escape <:+: cs

theorem UnicodeEscape.exists_shape {escape : List Char} (isEscape : UnicodeEscape escape) :
    ∃ a b c d, escape = ['\\', 'u', a, b, c, d] ∧ (hexUnit? a b c d).isSome = true := by
  cases isEscape with
  | @unit a b c d w x y z first second third fourth =>
    have spelled := hexUnit?_eq_some_iff.mpr ⟨w, x, y, z, first, second, third, fourth, rfl⟩
    exact ⟨a, b, c, d, rfl, by rw [spelled]; rfl⟩

theorem unicodeEscape_of_hexUnit? (isUnit : (hexUnit? a b c d).isSome = true) :
    UnicodeEscape ['\\', 'u', a, b, c, d] := by
  obtain ⟨u, spelled⟩ := Option.isSome_iff_exists.mp isUnit
  obtain ⟨_, _, _, _, first, second, third, fourth, -⟩ := hexUnit?_eq_some_iff.mp spelled
  exact .unit first second third fourth

theorem containsEscape_cons : ContainsEscape (c :: cs) ↔
    (∃ escape, UnicodeEscape escape ∧ escape <+: c :: cs) ∨ ContainsEscape cs := by
  simp only [ContainsEscape, List.infix_cons_iff, and_or_left, exists_or]

theorem hasUnicodeEscape_iff : hasUnicodeEscape cs = true ↔ ContainsEscape cs := by
  fun_induction hasUnicodeEscape cs with
  | case1 =>
    refine iff_of_false Bool.false_ne_true ?_
    rintro ⟨escape, isEscape, within⟩
    obtain ⟨a, b, c, d, rfl, -⟩ := isEscape.exists_shape
    exact List.cons_ne_nil _ _ (List.infix_nil.mp within)
  | case2 a b c d rest induction =>
    rw [Bool.or_eq_true, induction]
    refine (or_congr_left ⟨fun isUnit => ⟨_, unicodeEscape_of_hexUnit? isUnit, rest, rfl⟩,
      ?_⟩).trans containsEscape_cons.symm
    rintro ⟨escape, isEscape, rest, whole⟩
    obtain ⟨a, b, c, d, rfl, isUnit⟩ := isEscape.exists_shape
    simp only [List.cons_append, List.nil_append, List.cons.injEq, true_and] at whole
    obtain ⟨rfl, rfl, rfl, rfl, -⟩ := whole
    exact isUnit
  | case3 c rest notEscape induction =>
    rw [induction, containsEscape_cons, or_iff_right]
    rintro ⟨escape, isEscape, rest, whole⟩
    obtain ⟨a, b, c, d, rfl, -⟩ := isEscape.exists_shape
    simp only [List.cons_append, List.nil_append, List.cons.injEq] at whole
    exact notEscape a b c d rest whole.1.symm whole.2.symm

end Unravel.Text
