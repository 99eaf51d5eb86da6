import Unravel.Text.Alphabet

/-!
Names that can stand as identifiers.
-/

namespace Unravel.Source

/-- Words that no identifier may be spelled as. -/
def reservedWords : List String :=
  ["break", "case", "catch", "class", "const", "continue", "debugger", "default", "delete", "do",
    "else", "enum", "export", "extends", "false", "finally", "for", "function", "if", "import",
    "in", "instanceof", "new", "null", "return", "super", "switch", "this", "throw", "true",
    "try", "typeof", "var", "void", "while", "with"]

def isReservedWord (s : String) : Bool := reservedWords.contains s

def isNameStart (c : Char) : Bool := Text.isAlphabetic c || c = '_' || c = '$'

def isNamePart (c : Char) : Bool := Text.isAlphanumeric c || c = '_' || c = '$'

/-- Whether the string is an identifier: a letter, `_` or `$`, then any number of these and of
digits, and no reserved word. -/
def isIdentifierName (s : String) : Bool :=
  match s.toList with
  | [] => false
  | c :: rest => isNameStart c && rest.all isNamePart && !isReservedWord s

end Unravel.Source
