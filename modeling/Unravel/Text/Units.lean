/-!
Strings as UTF-16 code units, in which lengths, positions and order are counted.

Main statement: `ofUnits?_units`, reading the code units of a string gives the string back.
-/

namespace Unravel.Text

/-- The code units of one character: itself, or a surrogate pair. -/
def charUnits (c : Char) : List UInt16 :=
  let n := c.toNat
  if n < 0x10000 then [.ofNat n]
  else [.ofNat (0xd800 + (n - 0x10000) / 0x400), .ofNat (0xdc00 + (n - 0x10000) % 0x400)]

def units (s : String) : List UInt16 := s.toList.flatMap charUnits

def isHighSurrogate (u : UInt16) : Bool := 0xd800 ≤ u && u < 0xdc00

def isLowSurrogate (u : UInt16) : Bool := 0xdc00 ≤ u && u < 0xe000

/-- The characters that code units spell; `none` if a surrogate stands alone. -/
def charsOfUnits? : List UInt16 → Option (List Char)
  | [] => some []
  | u :: rest =>
    if isHighSurrogate u then
      match rest with
      | v :: rest =>
        if isLowSurrogate v then
          let n := 0x10000 + (u.toNat - 0xd800) * 0x400 + (v.toNat - 0xdc00)
          (charsOfUnits? rest).map (Char.ofNat n :: ·)
        else none
      | [] => none
    else if isLowSurrogate u then none
    else (charsOfUnits? rest).map (Char.ofNat u.toNat :: ·)

def ofUnits? (us : List UInt16) : Option String := (charsOfUnits? us).map String.ofList

theorem charsOfUnits?_charUnits (c : Char) (us : List UInt16) :
    charsOfUnits? (charUnits c ++ us) = (charsOfUnits? us).map (c :: ·) := by
  have valid : c.toNat < 0xd800 ∨ 0xdfff < c.toNat ∧ c.toNat < 0x110000 := c.valid
  by_cases h : c.toNat < 0x10000
  · have size : (UInt16.ofNat c.toNat).toNat = c.toNat := by
      simp only [UInt16.toNat_ofNat']
      omega
    have high : isHighSurrogate (.ofNat c.toNat) = false := by
      simp only [isHighSurrogate, Bool.and_eq_false_iff, decide_eq_false_iff_not,
        UInt16.le_iff_toNat_le, UInt16.lt_iff_toNat_lt, size, UInt16.reduceToNat]
      omega
    have low : isLowSurrogate (.ofNat c.toNat) = false := by
      simp only [isLowSurrogate, Bool.and_eq_false_iff, decide_eq_false_iff_not,
        UInt16.le_iff_toNat_le, UInt16.lt_iff_toNat_lt, size, UInt16.reduceToNat]
      omega
    rw [show charUnits c = [.ofNat c.toNat] by simp [charUnits, h], List.singleton_append,
      charsOfUnits?.eq_def]
    simp [high, low, size]
  · have size : (UInt16.ofNat (0xd800 + (c.toNat - 0x10000) / 0x400)).toNat
        = 0xd800 + (c.toNat - 0x10000) / 0x400 := by
      simp only [UInt16.toNat_ofNat']
      omega
    have size' : (UInt16.ofNat (0xdc00 + (c.toNat - 0x10000) % 0x400)).toNat
        = 0xdc00 + (c.toNat - 0x10000) % 0x400 := by
      simp only [UInt16.toNat_ofNat']
      omega
    have high : isHighSurrogate (.ofNat (0xd800 + (c.toNat - 0x10000) / 0x400)) = true := by
      simp only [isHighSurrogate, Bool.and_eq_true, decide_eq_true_eq,
        UInt16.le_iff_toNat_le, UInt16.lt_iff_toNat_lt, size, UInt16.reduceToNat]
      omega
    have low : isLowSurrogate (.ofNat (0xdc00 + (c.toNat - 0x10000) % 0x400)) = true := by
      simp only [isLowSurrogate, Bool.and_eq_true, decide_eq_true_eq,
        UInt16.le_iff_toNat_le, UInt16.lt_iff_toNat_lt, size', UInt16.reduceToNat]
      omega
    have whole : 0x10000 + (0xd800 + (c.toNat - 0x10000) / 0x400 - 0xd800) * 0x400
        + (0xdc00 + (c.toNat - 0x10000) % 0x400 - 0xdc00) = c.toNat := by omega
    simp only [charUnits, h, if_false, List.cons_append, List.nil_append, charsOfUnits?, high, low,
      if_true, size, size', whole, Char.ofNat_toNat]

theorem ofUnits?_units (s : String) : ofUnits? (units s) = some s := by
  have chars (cs : List Char) : charsOfUnits? (cs.flatMap charUnits) = some cs := by
    induction cs with
    | nil => rfl
    | cons c cs ih => rw [List.flatMap_cons, charsOfUnits?_charUnits, ih]; rfl
  simp [ofUnits?, units, chars]

/-- Order by code units, which differs from the order of characters above U+FFFF. -/
def unitsLess : List UInt16 → List UInt16 → Bool
  | _, [] => false
  | [], _ :: _ => true
  | a :: as, b :: bs => a < b || (a = b && unitsLess as bs)

section Search

variable {α : Type} [BEq α]

/-- The position where `needle` first occurs in a text whose first position is `start`. -/
def findFrom? (needle : List α) (start : Nat) : List α → Option Nat
  | [] => if needle.isEmpty then some start else none
  | x :: rest =>
    if needle.isPrefixOf (x :: rest) then some start else findFrom? needle (start + 1) rest

/-- Where `needle` first occurs at or after a position that lies in the text or at its end. -/
def find? (text needle : List α) (start : Nat) : Option Nat :=
  findFrom? needle start (text.drop start)

def findLastFrom? (needle : List α) (limit start : Nat) : List α → Option Nat
  | [] => if needle.isEmpty && start ≤ limit then some start else none
  | x :: rest =>
    if limit < start then none
    else
      match findLastFrom? needle limit (start + 1) rest with
      | some found => some found
      | none => if needle.isPrefixOf (x :: rest) then some start else none

def findLast? (text needle : List α) (limit : Nat) : Option Nat :=
  findLastFrom? needle limit 0 text

end Search

end Unravel.Text
