import Unravel.Numeral.Places
import Unravel.Text.Units

/-!
The contents of JSON strings: characters that stand for themselves, and escapes that stand for
one code unit each.
-/

namespace Unravel.Text

/-- The code unit that four hexadecimal digits spell. -/
def hexUnit? (a b c d : Char) : Option UInt16 := do
  let digit (c : Char) : Option Nat := Radix.digitValue? 16 c
  return .ofNat (((← digit a) * 16 + (← digit b)) * 256 + ((← digit c) * 16 + (← digit d)))

/-- Whether `\uXXXX` stands anywhere in a text. -/
def hasUnicodeEscape : List Char → Bool
  | [] => false
  | '\\' :: 'u' :: a :: b :: c :: d :: rest =>
    (hexUnit? a b c d).isSome || hasUnicodeEscape ('u' :: a :: b :: c :: d :: rest)
  | _ :: rest => hasUnicodeEscape rest

/-- The code unit of a one-letter escape. -/
def shortEscape? : Char → Option UInt16
  | '"' => some 0x22
  | '\\' => some 0x5c
  | '/' => some 0x2f
  | 'b' => some 0x08
  | 'f' => some 0x0c
  | 'n' => some 0x0a
  | 'r' => some 0x0d
  | 't' => some 0x09
  | _ => none

/-- The code units that the contents of a JSON string spell. -/
def unescapedUnits? : List Char → Option (List UInt16)
  | [] => some []
  | '\\' :: 'u' :: a :: b :: c :: d :: rest => do
    return (← hexUnit? a b c d) :: (← unescapedUnits? rest)
  | '\\' :: c :: rest => do return (← shortEscape? c) :: (← unescapedUnits? rest)
  | c :: rest =>
    if c = '"' || c = '\\' || c.toNat < 0x20 then none
    else (unescapedUnits? rest).map (charUnits c ++ ·)

/-- The string that the contents of a JSON string spell; `none` if they are malformed or leave
a surrogate alone. -/
def unescape? (s : String) : Option String := (unescapedUnits? s.toList).bind ofUnits?

end Unravel.Text
