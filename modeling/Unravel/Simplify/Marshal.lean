import Unravel.Simplify.Basic
import Unravel.Source.Name
import Unravel.Tree.Graft

/-!
Marshalled values: variables that are initialized by a call of the marshalling function on a
string. Every reference to such a name, wherever it stands, becomes the string or the identifier
it spells, and the variables go away. A name that is marshalled to two values is left alone.
-/

namespace Unravel.Marshal

/-- The name and the string of a declarator `name = function("string")`. -/
def marshalled? (p : Program) (function : String) (id : NodeId) : Option (String × String) :=
  match p.node id with
  | .variableDeclarator target (some init) => do
    let name ← (p.node target).identifier?
    let binding ← p.bindingOf? target
    match p.node init with
    | .call callee [argument] =>
      let value ← (p.node argument).string?
      if (p.node callee).isIdentifierNamed function && (p.binding binding).isConstant then
        some (name, value)
      else none
    | _ => none
  | _ => none

/-- A marshalled name with its declarators and its value, unless it has several. -/
structure Group where
  name : String
  value : Option String
  declarators : List NodeId

def addTo (declarator : NodeId) (name value : String) : List Group → List Group
  | [] => [⟨name, some value, [declarator]⟩]
  | group :: rest =>
    if group.name = name then
      { group with
        value := group.value.filter (· = value)
        declarators := group.declarators ++ [declarator] } :: rest
    else group :: addTo declarator name value rest

/-- The groups of a program in the order of their first declarators. -/
def groups (p : Program) (function : String) : List Group :=
  p.nodes.foldl (fun groups id =>
    match marshalled? p function id with
    | some (name, value) => addTo id name value groups
    | none => groups) []

/-- The value that a group's name can be replaced by. -/
def Group.plan? (c : Context) (mode : MarshalMode) (group : Group) : Option String :=
  group.value.filter fun value =>
    !c.isProtected group.name && (mode = .literal || Source.isIdentifierName value)

def encoded (mode : MarshalMode) (value : String) : StateM Tree NodeId :=
  match mode with
  | .literal => Tree.stringLiteral value
  | .identifier => Tree.identifier value

/-- The identifiers of a name that only read it. -/
def reads (p : Program) (name : String) : List NodeId :=
  (p.tree.identifiersNamed p.root name).filter fun id => p.tree.role id = .reference

def unwrapGroup (mode : MarshalMode) (group : Group) (value : String) : SimplifyM Unit := do
  for declarator in group.declarators do
    if (← SimplifyM.program).isAttached declarator then SimplifyM.remove declarator
  let uses := reads (← SimplifyM.program) group.name
  for use in uses do
    discard (SimplifyM.replace use (← SimplifyM.build (encoded mode value)))
  SimplifyM.log (.plain .marshalUnwrapped
    (group.name ++ " → \"" ++ value ++ "\" (" ++ toString uses.length ++ " uses)"))

def run (function : String) (mode : MarshalMode) : SimplifyM Bool := do
  let c ← SimplifyM.context
  SimplifyM.anyChange (groups (← SimplifyM.program) function) fun group => do
    match group.plan? c mode with
    | none => return false
    | some value =>
      unwrapGroup mode group value
      return true

end Unravel.Marshal
