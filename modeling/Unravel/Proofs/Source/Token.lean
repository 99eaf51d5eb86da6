import Mathlib.Tactic.Common
import Unravel.Proofs.Text.Escape
import Unravel.Source.Name
import Unravel.Source.Quoted

/-!
Words, numerals and quoted strings at the front of a text. Each of them is read off again wherever
it is followed by what cannot belong to it (`Source.ends`).

Quoted strings inside a text. Whatever follows a quoted string, the string and what follows can be
told apart, so that no quoted string begins another one. All its characters can be seen in a line.
Between its quotes each quote is escaped, and each backslash is escaped or begins an escape
(`Source.quotes_uniquely`).
-/

namespace Unravel.Source

variable {cs rest : List Char} {c : Char} {s : String}

/-! ### Words -/

/-- The characters that may stand in a name, as far as there are any. -/
def word (cs : List Char) : String := String.ofList (cs.takeWhile isNamePart)

def afterWord (cs : List Char) : List Char := cs.dropWhile isNamePart

/-- Whether a name or a numeral is over before a text. -/
def ends : List Char → Bool
  | '.' :: d :: _ => !d.isDigit
  | c :: _ => !isNamePart c
  | [] => true

theorem isNamePart_of_isDigit (isDigit : c.isDigit = true) : isNamePart c = true := by
  have small : c.toNat < 0x80 := by
    simp only [Char.isDigit, Bool.and_eq_true, decide_eq_true_eq] at isDigit
    have upper : c.val.toNat ≤ 57 := isDigit.2
    change c.val.toNat < 128
    omega
  simp [isNamePart, Text.isAlphanumeric, Text.isNumeric, small, isDigit]

theorem not_isNamePart_of_ends (isEnd : ends (c :: rest) = true) : isNamePart c = false := by
  unfold ends at isEnd
  split at isEnd
  · rename_i same
    rw [List.cons.injEq] at same
    rw [same.1]
    decide
  · rename_i same
    rw [List.cons.injEq] at same
    rw [same.1]
    simpa using isEnd
  · rename_i same
    cases same

theorem not_isDigit_of_ends (isEnd : ends (c :: rest) = true) : c.isDigit = false := by
  rw [Bool.eq_false_iff]
  intro isDigit
  have isPart := isNamePart_of_isDigit isDigit
  rw [not_isNamePart_of_ends isEnd] at isPart
  cases isPart

theorem takeWhile_of_ends (isEnd : ends rest = true) : rest.takeWhile isNamePart = [] := by
  cases rest with
  | nil => rfl
  | cons c cs => rw [List.takeWhile_cons, not_isNamePart_of_ends isEnd, if_neg Bool.false_ne_true]

theorem dropWhile_of_ends (isEnd : ends rest = true) : rest.dropWhile isNamePart = rest := by
  cases rest with
  | nil => rfl
  | cons c cs => rw [List.dropWhile_cons, not_isNamePart_of_ends isEnd, if_neg Bool.false_ne_true]

theorem word_append (all : s.toList.all isNamePart = true) (isEnd : ends rest = true) :
    word (s.toList ++ rest) = s ∧ afterWord (s.toList ++ rest) = rest := by
  rw [List.all_eq_true] at all
  constructor
  · rw [word, List.takeWhile_append_of_pos all, takeWhile_of_ends isEnd, List.append_nil,
      String.ofList_toList]
  · rw [afterWord, List.dropWhile_append_of_pos all, dropWhile_of_ends isEnd]

theorem exists_of_isIdentifierName (valid : isIdentifierName s = true) :
    ∃ c cs, s.toList = c :: cs ∧
      isNameStart c = true ∧ s.toList.all isNamePart = true ∧ isReservedWord s = false := by
  unfold isIdentifierName at valid
  split at valid
  · cases valid
  · rename_i c cs spelled
    simp only [Bool.and_eq_true, Bool.not_eq_true'] at valid
    obtain ⟨⟨isStart, parts⟩, free⟩ := valid
    refine ⟨c, cs, spelled, isStart, ?_, free⟩
    rw [spelled, List.all_cons, parts, Bool.and_true]
    simp only [isNameStart, isNamePart, Text.isAlphanumeric, Bool.or_eq_true] at isStart ⊢
    tauto

theorem not_isDigit_of_isNameStart (isStart : isNameStart c = true) : c.isDigit = false := by
  rw [Bool.eq_false_iff]
  intro isDigit
  simp only [Char.isDigit, Bool.and_eq_true, decide_eq_true_eq] at isDigit
  have lower : 48 ≤ c.val.toNat := isDigit.1
  have upper : c.val.toNat ≤ 57 := isDigit.2
  have small : c.toNat < 0x80 := by
    change c.val.toNat < 128
    omega
  have notAlpha : c.isAlpha = false := by
    have notUpper : c.isUpper = false := decide_eq_false fun isUpper => by
      have upperBound : 65 ≤ c.val.toNat := isUpper.1
      omega
    have notLower : c.isLower = false := by
      refine (Bool.and_eq_false_iff).mpr (.inl (decide_eq_false fun isLower => ?_))
      have lowerBound : 97 ≤ c.val.toNat := isLower
      omega
    change (c.isUpper || c.isLower) = false
    rw [notUpper, notLower, Bool.or_false]
  have different (d : Char) (far : 57 < d.val.toNat ∨ d.val.toNat < 48) : c ≠ d := by
    rintro rfl
    omega
  rw [isNameStart, Text.isAlphabetic, if_pos small, notAlpha] at isStart
  simp [different '_' (by decide), different '$' (by decide)] at isStart

/-! ### Numerals -/

def afterDigits (cs : List Char) : List Char := cs.dropWhile Char.isDigit

def afterFraction : List Char → List Char
  | '.' :: d :: cs => if d.isDigit then afterDigits cs else '.' :: d :: cs
  | cs => cs

def afterExponent : List Char → List Char
  | 'e' :: sign :: d :: cs =>
    if (sign = '+' || sign = '-') && d.isDigit then afterDigits cs else 'e' :: sign :: d :: cs
  | cs => cs

def afterNumeral (cs : List Char) : List Char := afterExponent (afterFraction (afterDigits cs))

/--
Whether a text is a plain numeral: digits, perhaps a point and more digits, perhaps an exponent. -/
def isNumeral (cs : List Char) : Bool := cs.head?.any Char.isDigit && (afterNumeral cs).isEmpty

theorem afterDigits_append (isEnd : ends rest = true) :
    afterDigits (cs ++ rest) = afterDigits cs ++ rest := by
  induction cs with
  | nil =>
    cases rest with
    | nil => rfl
    | cons c rest =>
      rw [List.nil_append, afterDigits, List.dropWhile_cons, not_isDigit_of_ends isEnd]
      rfl
  | cons d cs induction =>
    rw [List.cons_append, afterDigits, afterDigits, List.dropWhile_cons, List.dropWhile_cons]
    split
    · exact induction
    · rfl

theorem afterFraction_append (isEnd : ends rest = true) :
    afterFraction (cs ++ rest) = afterFraction cs ++ rest := by
  match cs with
  | [] =>
    rw [List.nil_append, afterFraction.eq_def, afterFraction.eq_def]
    split
    · rename_i d more
      rw [if_neg]
      · rfl
      · simpa [ends] using isEnd
    · rfl
  | [c] =>
    by_cases isPoint : c = '.'
    · subst isPoint
      cases rest with
      | nil => rfl
      | cons d rest =>
        change (if d.isDigit then afterDigits rest else '.' :: d :: rest) = '.' :: d :: rest
        rw [if_neg (by rw [not_isDigit_of_ends isEnd]; simp)]
    · simp [afterFraction, isPoint]
  | c :: d :: cs =>
    by_cases isPoint : c = '.'
    · subst isPoint
      change (if d.isDigit then afterDigits (cs ++ rest) else '.' :: d :: (cs ++ rest)) =
        (if d.isDigit then afterDigits cs else '.' :: d :: cs) ++ rest
      rw [afterDigits_append isEnd]
      split <;> rfl
    · simp [afterFraction, isPoint]

theorem afterExponent_append (isEnd : ends rest = true) (complete : afterExponent cs = []) :
    afterExponent (cs ++ rest) = rest := by
  unfold afterExponent at complete
  split at complete
  · rename_i sign d cs
    split at complete
    · rename_i isExponent
      change (if (sign = '+' || sign = '-') && d.isDigit then afterDigits (cs ++ rest)
        else 'e' :: sign :: d :: (cs ++ rest)) = rest
      rw [if_pos isExponent, afterDigits_append isEnd, complete, List.nil_append]
    · cases complete
  · subst complete
    rw [List.nil_append]
    unfold afterExponent
    split
    · have isPart := not_isNamePart_of_ends isEnd
      cases isPart.symm.trans (by decide : isNamePart 'e' = true)
    · rfl

def readNumeral (cs : List Char) : List Char := cs.take (cs.length - (afterNumeral cs).length)

theorem readNumeral_append (numeral : isNumeral cs = true) (isEnd : ends rest = true) :
    readNumeral (cs ++ rest) = cs ∧ afterNumeral (cs ++ rest) = rest := by
  rw [isNumeral, Bool.and_eq_true, List.isEmpty_iff] at numeral
  have remaining : afterNumeral (cs ++ rest) = rest := by
    rw [afterNumeral, afterDigits_append isEnd, afterFraction_append isEnd]
    exact afterExponent_append isEnd numeral.2
  refine ⟨?_, remaining⟩
  rw [readNumeral, remaining, List.length_append, Nat.add_sub_cancel, List.take_left]

/-! ### Quoted strings -/

def hexValue (c : Char) : Nat := if c.toNat < 58 then c.toNat - 48 else c.toNat - 55

def unescape : Char → Char
  | 'n' => '\n'
  | 'r' => '\r'
  | 't' => '\t'
  | 'b' => Char.ofNat 0x08
  | 'f' => Char.ofNat 0x0c
  | 'v' => Char.ofNat 0x0b
  | c => c

def readEscape : List Char → Option (Char × List Char)
  | 'x' :: a :: b :: cs => some (Char.ofNat (16 * hexValue a + hexValue b), cs)
  | 'u' :: a :: b :: c :: d :: cs =>
    some (Char.ofNat (4096 * hexValue a + 256 * hexValue b + 16 * hexValue c + hexValue d), cs)
  | c :: cs => some (unescape c, cs)
  | [] => none

def readChar : List Char → Option (Char × List Char)
  | '\\' :: cs => readEscape cs
  | c :: cs => some (c, cs)
  | [] => none

def readQuotedWithin : Nat → List Char → Option (List Char × List Char)
  | 0, _ => none
  | _ + 1, '"' :: cs => some ([], cs)
  | limit + 1, cs => do
    let (c, cs) ← readChar cs
    let (s, rest) ← readQuotedWithin limit cs
    some (c :: s, rest)

def readQuoted (cs : List Char) : Option (List Char × List Char) := readQuotedWithin cs.length cs

theorem hexValue_hexDigit : ∀ n < 128, n < 0x20 ∨ n = 0x7f →
    16 * hexValue (hexDigit (n / 16)) + hexValue (hexDigit (n % 16)) = n := by
  decide +kernel

theorem readChar_escape (c : Char) (cs : List Char) :
    readChar (escape c ++ cs) = some (c, cs) ∧ (escape c ++ cs).head? ≠ some '"' := by
  have eq_of_toNat {n : Nat} (same : c.toNat = n) :
      Char.ofNat n = c := by rw [← same, Char.ofNat_toNat]
  unfold escape
  by_cases quote : c = '"'
  · rw [if_pos quote, quote]
    exact ⟨rfl, by simp⟩
  rw [if_neg quote]
  by_cases slash : c = '\\'
  · rw [if_pos slash, slash]
    exact ⟨rfl, by simp⟩
  rw [if_neg slash]
  by_cases newline : c = '\n'
  · rw [if_pos newline, newline]
    exact ⟨rfl, by simp⟩
  rw [if_neg newline]
  by_cases back : c = '\r'
  · rw [if_pos back, back]
    exact ⟨rfl, by simp⟩
  rw [if_neg back]
  by_cases tab : c = '\t'
  · rw [if_pos tab, tab]
    exact ⟨rfl, by simp⟩
  rw [if_neg tab]
  by_cases bs : c.toNat = 0x08
  · rw [if_pos bs, ← eq_of_toNat bs]
    exact ⟨rfl, by simp⟩
  rw [if_neg bs]
  by_cases ff : c.toNat = 0x0c
  · rw [if_pos ff, ← eq_of_toNat ff]
    exact ⟨rfl, by simp⟩
  rw [if_neg ff]
  by_cases vt : c.toNat = 0x0b
  · rw [if_pos vt, ← eq_of_toNat vt]
    exact ⟨rfl, by simp⟩
  rw [if_neg vt]
  by_cases ls : c.toNat = 0x2028
  · rw [if_pos ls, ← eq_of_toNat ls]
    exact ⟨rfl, by simp⟩
  rw [if_neg ls]
  by_cases ps : c.toNat = 0x2029
  · rw [if_pos ps, ← eq_of_toNat ps]
    exact ⟨rfl, by simp⟩
  rw [if_neg ps]
  by_cases control : c.toNat < 0x20 ∨ c.toNat = 0x7f
  · rw [if_pos control]
    have value := eq_of_toNat (hexValue_hexDigit c.toNat (by omega) control).symm
    refine ⟨?_, by simp⟩
    change some (Char.ofNat _, cs) = _
    rw [value]
  · rw [if_neg control]
    refine ⟨?_, by simpa using quote⟩
    rw [List.singleton_append, readChar.eq_def]
    split
    · rename_i same
      rw [List.cons.injEq] at same
      exact absurd same.1 slash
    · rename_i same
      rw [List.cons.injEq] at same
      rw [same.1, same.2]
    · rename_i same
      cases same

theorem readQuotedWithin_flatMap (s rest : List Char) {limit : Nat} (enough : s.length < limit) :
    readQuotedWithin limit (s.flatMap escape ++ '"' :: rest) = some (s, rest) := by
  induction s generalizing limit with
  | nil =>
    obtain ⟨limit, rfl⟩ := Nat.exists_eq_add_of_lt enough
    rfl
  | cons c s induction =>
    rw [List.length_cons] at enough
    cases limit with
    | zero => omega
    | succ limit =>
      obtain ⟨read, noQuote⟩ := readChar_escape c (s.flatMap escape ++ '"' :: rest)
      rw [List.flatMap_cons, List.append_assoc, readQuotedWithin, read]
      · simp only [Option.bind_eq_bind, Option.bind_some]
        rw [induction (by omega)]
        rfl
      · rintro cs same
        rw [same] at noQuote
        exact noQuote rfl

theorem readQuoted_flatMap (s rest : List Char) :
    readQuoted (s.flatMap escape ++ '"' :: rest) = some (s, rest) := by
  apply readQuotedWithin_flatMap
  -- No character stands for itself with nothing.
  have wide (c : Char) : 1 ≤ (escape c).length := by
    rw [Nat.one_le_iff_ne_zero, Ne, List.length_eq_zero_iff]
    intro empty
    have read := (readChar_escape c []).1
    rw [empty] at read
    cases read
  have longer : s.length ≤ (s.flatMap escape).length := by
    induction s with
    | nil => simp
    | cons c s induction =>
      have := wide c
      rw [List.flatMap_cons, List.length_append, List.length_cons]
      omega
  rw [List.length_append, List.length_cons]
  omega

/-! ### Quoted strings inside a text -/

open Text (HexDigit)

variable {n : Nat} {before behind tail : List Char}

/-! ### The spelling of a character -/

def lineTerminators : List Char := ['\n', '\r', Char.ofNat 0x2028, Char.ofNat 0x2029]

/-- A character is no control character and ends no line. -/
structure Visible (c : Char) : Prop where
  above : 0x20 ≤ c.toNat
  notDelete : c.toNat ≠ 0x7f
  inLine : c ∉ lineTerminators

structure Plain (c : Char) : Prop extends Visible c where
  notQuote : c ≠ '"'
  notBackslash : c ≠ '\\'

/-- What stands behind the backslash of an escape. -/
inductive EscapeTail : List Char → Prop where
  | single {c : Char} : c ∈ ['"', '\\', 'n', 'r', 't', 'b', 'f', 'v'] → EscapeTail [c]
  | byte {a b : Char} {x y : Nat} : HexDigit a x → HexDigit b y → EscapeTail ['x', a, b]
  | unit {a b c d : Char} {w x y z : Nat} :
      HexDigit a w → HexDigit b x → HexDigit c y → HexDigit d z →
      EscapeTail ['u', a, b, c, d]

/-- What stands for a character between quotes: the character itself or an escape. -/
inductive Spelling : List Char → Prop where
  | plain {c : Char} : Plain c → Spelling [c]
  | escaped {tail : List Char} : EscapeTail tail → Spelling ('\\' :: tail)

theorem hexDigit_hexDigit (small : n < 16) : HexDigit (hexDigit n) n := by
  have each : ∀ n : Fin 16, Radix.digitValue? 16 (hexDigit n) = some n.val := by decide
  exact Text.digitValue?_eq_some_iff.mp (each ⟨n, small⟩)

theorem Spelling.ite {p : Prop} [Decidable p] {cs ds : List Char} (yes : p → Spelling cs)
    (no : ¬p → Spelling ds) :
    Spelling (if p then cs else ds) := by
  split
  · exact yes ‹p›
  · exact no ‹¬p›

theorem spelling_escape (c : Char) : Spelling (escape c) := by
  have single {c : Char} (member : c ∈ ['"', '\\', 'n', 'r', 't', 'b', 'f', 'v']) :
      Spelling ['\\', c] :=
    .escaped (.single member)
  have line {n : Nat} (small : n < 10) : Spelling ['\\', 'u', '2', '0', '2', hexDigit n] := by
    have digit (n : Nat) (small : n < 10) : HexDigit (hexDigit n) n := hexDigit_hexDigit (by omega)
    exact .escaped (.unit (digit 2 (by decide)) (digit 0 (by decide)) (digit 2 (by decide))
      (digit n small))
  refine .ite (fun _ => single (by decide))
    fun notQuote => .ite (fun _ => single (by decide)) fun notBackslash => ?_
  refine .ite (fun _ => single (by decide))
    fun notFeed => .ite (fun _ => single (by decide)) fun notReturn => ?_
  refine .ite (fun _ => single (by decide)) fun _ => .ite (fun _ => single (by decide)) fun _ => ?_
  refine .ite (fun _ => single (by decide)) fun _ => .ite (fun _ => single (by decide)) fun _ => ?_
  refine .ite (fun _ => line (n := 8) (by decide)) fun notLine => ?_
  refine .ite (fun _ => line (n := 9) (by decide))
    fun notParagraph => .ite (fun control => ?_) fun visible => ?_
  · exact .escaped (.byte (hexDigit_hexDigit (by omega)) (hexDigit_hexDigit (by omega)))
  · rw [not_or, Nat.not_lt] at visible
    refine .plain ⟨⟨visible.1, visible.2, ?_⟩, notQuote, notBackslash⟩
    simp only [lineTerminators, List.mem_cons, List.not_mem_nil, or_false, not_or]
    refine ⟨notFeed, notReturn, ?_, ?_⟩
    · rintro rfl
      exact notLine rfl
    · rintro rfl
      exact notParagraph rfl

/-! ### Visible characters -/

theorem Visible.of_lt (above : 0x20 ≤ c.toNat) (below : c.toNat < 0x7f) : Visible c := by
  refine ⟨above, by omega, ?_⟩
  simp only [lineTerminators, List.mem_cons, List.not_mem_nil, or_false, not_or]
  refine ⟨?_, ?_, ?_, ?_⟩ <;> rintro rfl <;> revert above below <;> decide

theorem plain_of_hexDigit (digit : HexDigit c n) : Plain c := by
  have bounds : 48 ≤ c.toNat ∧ c.toNat ≤ 57 ∨ 65 ≤ c.toNat ∧ c.toNat ≤ 70 ∨
      97 ≤ c.toNat ∧ c.toNat ≤ 102 := by
    cases digit with
    | decimal low high => exact .inl ⟨low, high⟩
    | lower low high => exact .inr (.inr ⟨low, high⟩)
    | upper low high => exact .inr (.inl ⟨low, high⟩)
  refine ⟨.of_lt (by omega) (by omega), ?_, ?_⟩
  all_goals
    rintro rfl
    revert bounds
    decide

theorem EscapeTail.exists_cons (isTail : EscapeTail tail) :
    ∃ first rest, tail = first :: rest ∧ Visible first ∧ ∀ c ∈ rest, Plain c := by
  cases isTail with
  | single member =>
    refine ⟨_, [], rfl, ?_, by simp⟩
    simp only [List.mem_cons, List.not_mem_nil, or_false] at member
    rcases member with rfl | rfl | rfl | rfl | rfl | rfl | rfl | rfl <;>
      exact .of_lt (by decide) (by decide)
  | byte first second =>
    refine ⟨_, _, rfl, .of_lt (by decide) (by decide), ?_⟩
    simpa using ⟨plain_of_hexDigit first, plain_of_hexDigit second⟩
  | unit first second third fourth =>
    refine ⟨_, _, rfl, .of_lt (by decide) (by decide), ?_⟩
    simpa using ⟨plain_of_hexDigit first, plain_of_hexDigit second, plain_of_hexDigit third,
      plain_of_hexDigit fourth⟩

theorem Spelling.visible (spelling : Spelling cs) : ∀ c ∈ cs, Visible c := by
  cases spelling with
  | plain isPlain => exact List.forall_mem_singleton.mpr isPlain.toVisible
  | escaped isTail =>
    obtain ⟨first, rest, rfl, visible, plain⟩ := isTail.exists_cons
    rw [List.forall_mem_cons, List.forall_mem_cons]
    exact ⟨.of_lt (by decide) (by decide), visible, fun c member => (plain c member).toVisible⟩

/-! ### Which characters are escaped -/

/--
Whether what follows a text is escaped: the text ends with a backslash that is not itself escaped.
-/
def opensEscape (before : List Char) :
    Bool := before.foldl (fun isOpen c => !isOpen && c = '\\') false

/-- What ends outside of an escape does not matter. -/
theorem opensEscape_append (closed : opensEscape cs = false) :
    opensEscape (cs ++ before) = opensEscape before := by
  rw [opensEscape, List.foldl_append, ← opensEscape, closed, opensEscape]

theorem opensEscape_of_plain (plain : ∀ c ∈ cs, Plain c) : opensEscape cs = false := by
  induction cs with
  | nil => rfl
  | cons c rest induction =>
    rw [List.forall_mem_cons] at plain
    have closed : opensEscape [c] = false := by simp [opensEscape, plain.1.notBackslash]
    rw [← List.singleton_append, opensEscape_append closed, induction plain.2]

theorem Spelling.closed (spelling : Spelling cs) : opensEscape cs = false := by
  cases spelling with
  | plain isPlain => exact opensEscape_of_plain (List.forall_mem_singleton.mpr isPlain)
  | escaped isTail =>
    obtain ⟨first, rest, rfl, -, plain⟩ := isTail.exists_cons
    have closed : opensEscape ['\\', first] = false := by simp [opensEscape]
    rw [← List.singleton_append, ← List.singleton_append (l := rest), ← List.append_assoc,
      List.singleton_append, opensEscape_append closed, opensEscape_of_plain plain]

theorem Spelling.of_split (spelling : Spelling cs) (split : cs = before ++ c :: behind)
    (special : ¬Plain c) :
    opensEscape before = true ∨ (c = '\\' ∧ EscapeTail behind) := by
  cases spelling with
  | @plain d isPlain =>
    have member : c ∈ [d] := by
      rw [split]
      simp
    rw [List.mem_singleton] at member
    exact absurd isPlain (member ▸ special)
  | escaped isTail =>
    match before with
    | [] =>
      obtain ⟨rfl, rfl⟩ := List.cons.inj split
      exact .inr ⟨rfl, isTail⟩
    | [_] =>
      obtain ⟨rfl, -⟩ := List.cons.inj split
      exact .inl rfl
    | _ :: _ :: further =>
      obtain ⟨first, rest, rfl, -, plain⟩ := isTail.exists_cons
      obtain ⟨-, split⟩ := List.cons.inj split
      obtain ⟨-, split⟩ := List.cons.inj split
      exact absurd (plain c (by simp [split])) special

/-! ### The text between the quotes -/

theorem visible_of_mem_flatMap {s : List Char} (member : c ∈ s.flatMap escape) : Visible c := by
  obtain ⟨d, -, member⟩ := List.mem_flatMap.mp member
  exact (spelling_escape d).visible c member

theorem closed_flatMap (s : List Char) : opensEscape (s.flatMap escape) = false := by
  induction s with
  | nil => rfl
  | cons d s induction =>
    rw [List.flatMap_cons, opensEscape_append (spelling_escape d).closed, induction]

theorem of_split_flatMap {s : List Char} (split : s.flatMap escape = before ++ c :: behind)
    (special : ¬Plain c) :
    opensEscape before = true ∨
    (c = '\\' ∧ ∃ tail rest, behind = tail ++ rest ∧ EscapeTail tail) := by
  induction s generalizing before with
  | nil => simp at split
  | cons d s induction =>
    have spelling := spelling_escape d
    rw [List.flatMap_cons, List.append_eq_append_iff] at split
    -- The place is behind the spelling of the first character or inside of it.
    rcases split with ⟨further, rfl, split⟩ | ⟨within, split, rest⟩
    · rw [opensEscape_append spelling.closed]
      exact induction split
    · cases within with
      | nil =>
        have split : s.flatMap escape = [] ++ c :: behind := rest.symm
        exact (induction split).imp_left fun isOpen => Bool.noConfusion isOpen
      | cons first within =>
        obtain ⟨rfl, rfl⟩ := List.cons.inj rest
        exact (spelling.of_split split special).imp_right fun ⟨isBackslash, isTail⟩ =>
          ⟨isBackslash, _, _, rfl, isTail⟩

theorem toList_quote (s : String) : (quote s).toList = '"' :: s.toList.flatMap escape ++ ['"'] := by
  rw [quote, String.toList_ofList, List.cons_append]

theorem eq_of_quote_append {s t x y : String} (same : quote s ++ x = quote t ++ y) :
    s = t ∧ x = y := by
  have text (s x : String) :
      (quote s ++ x).toList = '"' :: (s.toList.flatMap escape ++ '"' :: x.toList) := by
    simp [toList_quote]
  have inside := congrArg String.toList same
  rw [text, text, List.cons.injEq] at inside
  have read := readQuoted_flatMap s.toList x.toList
  rw [inside.2, readQuoted_flatMap, Option.some.injEq, Prod.mk.injEq] at read
  exact ⟨String.toList_inj.mp read.1.symm, String.toList_inj.mp read.2.symm⟩

/-- Texts that begin with quoted strings are the same only if both the strings and what follows them
are, so that no quoted string begins another one. All characters of a quoted string are visible.
Between its quotes, every quote is escaped, every backslash is escaped or begins an escape, and the
escapes are over where the text between the quotes is. -/
theorem quotes_uniquely (s : String) :
    (∀ t x y, quote s ++ x = quote t ++ y → s = t ∧ x = y) ∧
    (∀ t, (quote s).toList <+: (quote t).toList → s = t) ∧
    (∀ c ∈ (quote s).toList, Visible c) ∧
    ∃ body, (quote s).toList = '"' :: body ++ ['"'] ∧ opensEscape body = false ∧
      (∀ before behind, body = before ++ '"' :: behind → opensEscape before = true) ∧
      ∀ before behind, body = before ++ '\\' :: behind →
        opensEscape before = true ∨ ∃ tail rest, behind = tail ++ rest ∧ EscapeTail tail := by
  refine ⟨fun t x y => eq_of_quote_append, ?_, ?_, s.toList.flatMap escape, toList_quote s,
    closed_flatMap _, ?_, ?_⟩
  · rintro t ⟨rest, whole⟩
    have same : quote s ++ String.ofList rest = quote t ++ "" :=
      String.toList_inj.mp (by simpa using whole)
    exact (eq_of_quote_append same).1
  · intro c member
    rw [toList_quote, List.mem_append, List.mem_cons, List.mem_singleton] at member
    have visible : Visible '"' := .of_lt (by decide) (by decide)
    rcases member with (rfl | inside) | rfl
    · exact visible
    · exact visible_of_mem_flatMap inside
    · exact visible
  · intro before behind split
    have special : ¬Plain '"' := fun plain => plain.notQuote rfl
    refine (of_split_flatMap split special).resolve_right ?_
    rintro ⟨isBackslash, -⟩
    cases isBackslash
  · intro before behind split
    have special : ¬Plain '\\' := fun plain => plain.notBackslash rfl
    exact (of_split_flatMap split special).imp_right And.right

/--
The string of a quote, a line separator and a control character, which stands as `"\"\u2028\x01"` in
a text. -/
theorem exists_quotes_uniquely :
    ∃ s, (quote s).toList = ['"', '\\', '"', '\\', 'u', '2', '0', '2', '8', '\\', 'x', '0',
      '1', '"'] ∧ (∀ t x y, quote s ++ x = quote t ++ y → s = t ∧ x = y) ∧
        (∀ c ∈ (quote s).toList, Visible c) ∧
        opensEscape ['\\'] = true := by
  let s := String.ofList ['"', Char.ofNat 0x2028, Char.ofNat 1]
  obtain ⟨unique, -, visible, body, whole, -, quotes, -⟩ := quotes_uniquely s
  have spelled : (quote s).toList = ['"', '\\', '"', '\\', 'u', '2', '0', '2', '8', '\\', 'x', '0',
      '1', '"'] := by
    rw [toList_quote, String.toList_ofList]
    decide
  refine ⟨s, spelled, unique, visible,
    quotes ['\\'] ['\\', 'u', '2', '0', '2', '8', '\\', 'x', '0', '1'] ?_⟩
  rw [spelled] at whole
  simpa using congrArg (fun text => text.tail.dropLast) whole.symm

end Unravel.Source
