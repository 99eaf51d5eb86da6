import Unravel.Simplify.Basic
import Unravel.Text.Escape
import Unravel.Tree.Graft

/-!
Escapes in strings: a string whose value spells `\uXXXX` sequences is decoded as the contents of
a JSON string, and a spelling with escapes is dropped.
-/

namespace Unravel.Escapes

def decoded? (value : String) : Option String :=
  if Text.hasUnicodeEscape value.toList then
    (Text.unescape? value).filter fun text => !Text.hasUnicodeEscape text.toList
  else none

/-- The new value of a literal, and whether it was decoded. -/
def plan? : Node NodeId → Option (String × Bool)
  | .literal (.string value raw) =>
    match decoded? value with
    | some text => some (text, true)
    | none => if raw.any (·.contains '\\') then some (value, false) else none
  | _ => none

def step (id : NodeId) : SimplifyM Bool := do
  match plan? ((← SimplifyM.program).node id) with
  | none => return false
  | some (value, decoded) =>
    let literal ← SimplifyM.build (Tree.stringLiteral value)
    if decoded then SimplifyM.replaceAndRecord .stringDecoded "" id literal
    else discard (SimplifyM.replace id literal)
    return true

def run : SimplifyM Bool := do
  SimplifyM.anyChange (← SimplifyM.nodesWhere fun p id => (p.node id).string?.isSome) step

end Unravel.Escapes
