import Unravel.Tree.Basic

/-!
What an identifier does where it stands: declare a name, read it, write it, or merely spell a
property. The role depends on the nodes above the identifier alone.
-/

namespace Unravel

inductive Role where
  | declaration
  | reference
  | mutation
  | referenceAndMutation
  | label
deriving DecidableEq

namespace Role

def reads : Role → Bool
  | reference | referenceAndMutation => true
  | _ => false

def writes : Role → Bool
  | mutation | referenceAndMutation => true
  | _ => false

/-- Whether the identifier stands for a variable declared elsewhere. -/
def isUse (role : Role) : Bool := role.reads || role.writes

end Role

namespace Tree

/-- The role of the names in a pattern whose ancestors are given, the nearest first: they are
written when the outermost pattern is assigned to, and declared otherwise. Below a default value
they are read. -/
def patternRole (t : Tree) (pattern : NodeId) : List NodeId → Role
  | [] => .declaration
  | parent :: outer =>
    match t.node parent with
    | .assignmentPattern left _ =>
      if left = pattern then t.patternRole parent outer else .reference
    | .restElement _ | .arrayPattern _ => t.patternRole parent outer
    | .assignment _ left _ => if left = pattern then .mutation else .declaration
    | _ => .declaration

/-- The role of an identifier. -/
def role (t : Tree) (id : NodeId) : Role :=
  match t.parent? id with
  | none => .reference
  | some parent =>
    match t.node parent with
    | .member _ key false => if key = id then .label else .reference
    | .property key _ false => if key = id then .label else .reference
    | .classMethod _ key _ _ => if key = id then .label else .reference
    | .classDef c =>
      if c.name = some id then (if c.isDeclaration then .declaration else .label)
      else .reference
    | .function f =>
      if f.name = some id || id ∈ f.params then .declaration else .reference
    | .variableDeclarator target _ => if target = id then .declaration else .reference
    | .assignmentPattern left _ =>
      if left = id then t.patternRole parent (t.ancestors parent) else .reference
    | .restElement _ | .arrayPattern _ => t.patternRole parent (t.ancestors parent)
    | .assignment _ left _ => if left = id then .mutation else .reference
    | .update .. => .referenceAndMutation
    | _ => .reference

def patternNamesWithin (t : Tree) : Nat → NodeId → List NodeId
  | 0, _ => []
  | limit + 1, id =>
    match t.node id with
    | .identifier _ => [id]
    | .assignmentPattern left _ => t.patternNamesWithin limit left
    | .restElement argument => t.patternNamesWithin limit argument
    | .arrayPattern elements => elements.flatMap (t.patternNamesWithin limit)
    | _ => []

/-- The identifiers that a pattern binds, in source order. -/
def patternNames (t : Tree) (pattern : NodeId) : List NodeId :=
  t.patternNamesWithin t.size pattern

end Tree

end Unravel
