import Unravel.Simplify.Basic
import Unravel.Simplify.Shape
import Unravel.Tree.Graft

/-!
Object literals in pieces: assignments to properties that follow the declaration of an empty
object are put back into the literal. The first statement that mentions the object in any other
way ends the search.
-/

namespace Unravel.ObjectLiteral

/-- How an assignment names its property. -/
inductive Key where
  | named (name : String)
  | quoted (name : String)
  | computed (key : NodeId)

structure Entry where
  statement : NodeId
  key : Key
  value : NodeId

structure EmptyObject where
  name : String
  binding : BindingId
  init : NodeId

def emptyObject? (p : Program) (declarator : NodeId) : Option EmptyObject :=
  match p.node declarator with
  | .variableDeclarator target (some init) => do
    let name ← (p.node target).identifier?
    let binding ← p.bindingOf? target
    match p.node init with
    | .object [] => if p.isConstantVariable binding then some ⟨name, binding, init⟩ else none
    | _ => none
  | _ => none

def mentions (p : Program) (name : String) (id : NodeId) : Bool :=
  !(p.tree.identifiersNamed id name).isEmpty

/-- The key of a member expression. -/
def key? (p : Program) (key : NodeId) (computed : Bool) : Option Key :=
  if computed then
    match (p.node key).string? with
    | some name => some (.quoted name)
    | none => some (.computed key)
  else (p.node key).identifier?.map .named

/-- The entry that a statement `name.key = value;` or `name[key] = value;` adds to the object,
unless the key or the value mentions the object. -/
def added? (p : Program) (object : EmptyObject) (statement : NodeId) : Option Entry :=
  match p.node statement with
  | .expressionStatement expression =>
    match p.node expression with
    | .assignment .assign left right =>
      match p.node left with
      | .member base key computed =>
        if (p.node base).isIdentifierNamed object.name && p.bindingOf? base = some object.binding
          && !mentions p object.name right && !(computed && mentions p object.name key) then
          (key? p key computed).map fun key => ⟨statement, key, right⟩
        else none
      | _ => none
    | _ => none
  | _ => none

/-- The entries that a run of statements adds to the object. -/
def entries (p : Program) (object : EmptyObject) : List NodeId → List Entry
  | [] => []
  | statement :: rest =>
    match added? p object statement with
    | some entry => entry :: entries p object rest
    | none => if mentions p object.name statement then [] else entries p object rest

/-- A property with copies of an entry's value and key. -/
def property (entry : Entry) : StateM Tree NodeId := do
  let value ← Tree.copy entry.value
  match entry.key with
  | .named name => Tree.namedProperty name value
  | .quoted name => Tree.quotedProperty name value
  | .computed key => Tree.alloc (.property (← Tree.copy key) value true)

def isDeclarator : Node NodeId → Bool
  | .variableDeclarator .. => true
  | _ => false

/-- The object of a declarator and the entries that statements after it add. -/
def plan? (p : Program) (declarator : NodeId) : Option (EmptyObject × List Entry) := do
  let object ← emptyObject? p declarator
  let declaration ← p.tree.parent? declarator
  match entries p object (p.tree.followingStatements declaration) with
  | [] => none
  | entries => some (object, entries)

def step (declarator : NodeId) : SimplifyM Bool := do
  match plan? (← SimplifyM.program) declarator with
  | none => return false
  | some (object, entries) =>
    let properties ← SimplifyM.build (entries.mapM property)
    for entry in entries do SimplifyM.remove entry.statement
    discard (SimplifyM.replace object.init (← SimplifyM.build (Tree.alloc (.object properties))))
    SimplifyM.record .objectReconstructed declarator
      (object.name ++ ": " ++ toString entries.length ++ " properties")
    return true

def run : SimplifyM Bool := SimplifyM.visit (fun p id => isDeclarator (p.node id)) step

end Unravel.ObjectLiteral
