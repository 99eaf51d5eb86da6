import Unravel.Program.Basic

/-!
Questions about the shape of a piece of program that several rules ask.
-/

namespace Unravel

namespace Tree

/-- The value that a function returns whose body is a single return statement. -/
def singleReturn? (t : Tree) (function : NodeId) : Option NodeId := do
  let f ← (t.node function).function?
  match t.node f.body with
  | .block [only] =>
    match t.node only with
    | .return_ argument => argument
    | _ => none
  | _ => none

/-- The static name of an object literal's property: an identifier that is not computed, or a
string. -/
def propertyName? (t : Tree) (property : NodeId) : Option String :=
  match t.node property with
  | .property key _ computed =>
    match t.node key with
    | .identifier name => if computed then none else some name
    | .literal (.string value _) => some value
    | _ => none
  | _ => none

def memberName? (t : Tree) (member : NodeId) : Option String :=
  match t.node member with
  | .member _ key computed =>
    match t.node key with
    | .identifier name => if computed then none else some name
    | .literal (.string value _) => if computed then some value else none
    | _ => none
  | _ => none

/-- The value of the last property with the given name in an object literal, all of whose
properties have static names. -/
def entryOf? (t : Tree) (object : NodeId) (name : String) : Option NodeId :=
  match t.node object with
  | .object properties =>
    if properties.any fun p => (t.propertyName? p).isNone then none
    else
      match properties.reverse.find? fun p => t.propertyName? p = some name with
      | some property =>
        match t.node property with
        | .property _ value _ => some value
        | _ => none
      | none => none
  | _ => none

def isWriteTarget (t : Tree) (id : NodeId) : Bool :=
  match (t.parent? id).map t.node with
  | some (.assignment _ left _) => left = id
  | some (.update ..) | some (.unary .delete _) => true
  | _ => false

def isLiteralValue (t : Tree) (id : NodeId) : Bool :=
  match t.node id with
  | .literal _ => true
  | .unary .minus argument =>
    match t.node argument with
    | .literal (.number _) => true
    | _ => false
  | _ => false

def isPlainAssignment (t : Tree) (id : NodeId) : Bool :=
  match t.node id with
  | .assignment .assign _ _ => true
  | _ => false

def statementList? (t : Tree) (statement : NodeId) : Option NodeId := do
  let parent ← t.parent? statement
  let statements ← (t.node parent).statements?
  if statement ∈ statements then some parent else none

def followingStatements (t : Tree) (statement : NodeId) : List NodeId :=
  match (t.statementList? statement).bind fun list => (t.node list).statements? with
  | some statements => (statements.dropWhile (· ≠ statement)).drop 1
  | none => []

/-- Whether a test holds somewhere at or below a node, within the given number of levels;
functions other than `top` are not looked into. -/
def anyOutsideFunctions (t : Tree) (top : NodeId) (test : Node NodeId → Bool) :
    Nat → NodeId → Bool
  | 0, _ => false
  | limit + 1, id =>
    test (t.node id)
      || ((id = top || !(t.node id).isFunction)
        && (t.node id).children.any (t.anyOutsideFunctions top test limit))

def isThis : Node NodeId → Bool
  | .this_ => true
  | _ => false

def usesReceiver (t : Tree) (expression : NodeId) : Bool :=
  t.anyOutsideFunctions expression
    (fun node => isThis node || node.isIdentifierNamed "arguments") t.size expression

def usesThis (t : Tree) (body : NodeId) : Bool :=
  !(t.node body).isFunction && t.anyOutsideFunctions body isThis t.size body

end Tree

namespace Program

/-- The declarator of a binding that one introduces, with its initializer. -/
def declaratorOf? (p : Program) (binding : BindingId) : Option (NodeId × Option NodeId) :=
  let b := p.binding binding
  match p.node b.declaration with
  | .variableDeclarator target init =>
    if target = b.identifier then some (b.declaration, init) else none
  | _ => none

def initialized? (p : Program) (binding : BindingId) : Option (NodeId × NodeId) := do
  let (declarator, init) ← p.declaratorOf? binding
  return (declarator, ← init)

/-- Whether a binding is a variable that is never written after its declaration, which always
runs. -/
def isConstantVariable (p : Program) (binding : BindingId) : Bool :=
  let b := p.binding binding
  b.kind.isVariable && b.isConstant && p.scopes.isUnconditional p.tree binding

/-- The binding that an identifier uses without being its declaration. -/
def usedBinding? (p : Program) (id : NodeId) : Option BindingId :=
  (p.bindingOf? id).filter fun binding => (p.binding binding).identifier ≠ id

/-- Whether a member of the object bound to a name is written anywhere. -/
def hasMemberWrites (p : Program) (binding : BindingId) : Bool :=
  (p.binding binding).references.any fun reference =>
    match p.tree.parent? reference with
    | none => false
    | some parent =>
      match p.node parent with
      | .member base _ _ => base = reference && p.tree.isWriteTarget parent
      | _ => false

/-- The bindings through which a function can call itself: that of its own name and that of the
variable it initializes. -/
def ownBindings (p : Program) (function : NodeId) : List BindingId :=
  let named := ((p.node function).function?.bind (·.name)).bind p.bindingOf?
  let assigned := (p.tree.parent? function).bind fun parent =>
    match p.node parent with
    | .variableDeclarator target init =>
      if init = some function then p.bindingOf? target else none
    | _ => none
  named.toList ++ assigned.toList

def isSelfRecursive (p : Program) (function : NodeId) : Bool :=
  (p.ownBindings function).any fun binding =>
    (p.binding binding).references.any fun reference => p.tree.isWithin reference function

end Program

end Unravel
