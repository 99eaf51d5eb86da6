import Unravel.Tree.Basic

/-!
The reasons an operation on a program can fail, and their wording.
-/

namespace Unravel

/-- How a maintained binding differs from what the tree says. -/
inductive Discrepancy where
  | missing
  | references (have_ want : List NodeId)
  | mutations (have_ want : List NodeId)
  | gone

inductive Error where
  | rootReplaced
  | rootRemoved
  | requiredPart (kind parentKind : String)
  | parameterKind (kind : String)
  | noSingleReturn (kind : String)
  | diverged (name : String) (discrepancy : Discrepancy)
  | detached (node : NodeId)
  | attached (node : NodeId)
  | tooDeep (limit : Nat)
  | noProgram (kind : String)
  | noScope (kind : String)
  | failed (message : String)

/-- Handles between brackets. -/
def NodeId.listText (ids : List NodeId) : String :=
  "[" ++ ", ".intercalate (ids.map NodeId.label) ++ "]"

def Discrepancy.message : Discrepancy → String
  | missing => "binding missing from the table"
  | references have_ want =>
    "references " ++ NodeId.listText have_ ++ " but tree has " ++ NodeId.listText want
  | mutations have_ want =>
    "mutations " ++ NodeId.listText have_ ++ " but tree has " ++ NodeId.listText want
  | gone => "declaration is no longer part of the tree"

def Error.message : Error → String
  | rootReplaced => "the program root cannot be replaced"
  | rootRemoved => "the program root cannot be removed"
  | requiredPart kind parentKind =>
    "cannot remove the required " ++ kind ++ " of a " ++ parentKind
  | parameterKind kind => "cannot inline a function with a " ++ kind ++ " parameter"
  | noSingleReturn kind => kind ++ " is not a single-return function"
  | diverged name discrepancy =>
    "Reference mismatch for binding '" ++ name ++ "': " ++ discrepancy.message
  | detached node => "Node " ++ node.label ++ " is not attached to the tree"
  | attached node => "Node " ++ node.label ++ " is already attached to the tree"
  | tooDeep limit => "Reach the maximum recursion level allowed - " ++ toString limit
  | noProgram kind => "expected a Program root, found " ++ kind
  | noScope kind => "cannot resolve scopes from a " ++ kind ++ " node"
  | failed message => message

end Unravel
