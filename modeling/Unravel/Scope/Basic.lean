import Unravel.Scope.Role

/-!
The table of scopes and bindings of a tree: which node opens which scope, which names a scope
declares, and which identifiers belong to which binding.

A name is looked up in the scope around a place and then outwards (`Scopes.lookup?`). Bindings
are numbered in the order of their declarations, and a binding whose declaration has left the
tree keeps its number as a retired one.
-/

namespace Unravel

structure ScopeId where
  index : Nat
deriving DecidableEq, Inhabited

structure BindingId where
  index : Nat
deriving DecidableEq, Hashable, Inhabited

inductive ScopeKind where
  | program | function | block
deriving DecidableEq, Inhabited

/-- How a name was declared. A function expression's own name is local to it. -/
inductive BindingKind where
  | var | let_ | const | function | param | class_ | local_
deriving DecidableEq, Inhabited

namespace ScopeKind

def name : ScopeKind → String
  | program => "Program"
  | function => "Function"
  | block => "Block"

end ScopeKind

namespace BindingKind

def name : BindingKind → String
  | var => "Var"
  | let_ => "Let"
  | const => "Const"
  | function => "Function"
  | param => "Param"
  | class_ => "Class"
  | local_ => "Local"

def ofVarKind : VarKind → BindingKind
  | .var => var
  | .let_ => let_
  | .const => const

def isVariable : BindingKind → Bool
  | var | let_ | const => true
  | _ => false

end BindingKind

structure Scope where
  kind : ScopeKind
  node : NodeId
  outer : Option ScopeId
  names : Std.HashMap String BindingId
deriving Inhabited

/-- A declared name with the identifiers that read it and those that write it, in the order of
their discovery. A second declaration of the name counts as a write. -/
structure Binding where
  name : String
  kind : BindingKind
  identifier : NodeId
  declaration : NodeId
  scope : ScopeId
  references : List NodeId
  mutations : List NodeId
  retired : Bool
deriving Inhabited

namespace Binding

def isReferenced (b : Binding) : Bool := !b.references.isEmpty

/-- Whether the name is never written after its declaration. -/
def isConstant (b : Binding) : Bool := b.mutations.isEmpty

end Binding

/-- The kind of scope a node opens. The body of a function shares the function's scope. -/
def Tree.scopeKind? (t : Tree) (id : NodeId) : Option ScopeKind :=
  match t.node id with
  | .program _ => some .program
  | .function _ => some .function
  | .block _ =>
    if (t.parent? id).any fun parent => (t.node parent).isFunction then none else some .block
  | .for_ .. | .switch .. => some .block
  | _ => none

structure Scopes where
  scopes : Array Scope
  bindings : Array Binding
  owned : Std.HashMap NodeId ScopeId
  occurrences : Std.HashMap NodeId BindingId
deriving Inhabited

namespace Scopes

def empty : Scopes := ⟨#[], #[], ∅, ∅⟩

def scope (s : Scopes) (id : ScopeId) : Scope := s.scopes[id.index]?.getD default

def binding (s : Scopes) (id : BindingId) : Binding := s.bindings[id.index]?.getD default

def modifyBinding (s : Scopes) (id : BindingId) (f : Binding → Binding) : Scopes :=
  { s with bindings := s.bindings.modify id.index f }

/-- The bindings whose declarations are in the tree, in the order of these. -/
def liveIds (s : Scopes) : List BindingId :=
  ((List.range s.bindings.size).map BindingId.mk).filter fun id => !(s.binding id).retired

def live (s : Scopes) : List Binding := s.liveIds.map s.binding

/-- The binding an identifier belongs to. -/
def bindingOf? (s : Scopes) (id : NodeId) : Option BindingId := s.occurrences[id]?

def chainWithin (s : Scopes) : Nat → ScopeId → List ScopeId
  | 0, _ => []
  | limit + 1, id =>
    match (s.scope id).outer with
    | some outer => id :: s.chainWithin limit outer
    | none => [id]

/-- The scopes from the given one outwards. -/
def chain (s : Scopes) (id : ScopeId) : List ScopeId := s.chainWithin s.scopes.size id

/-- Looks a name up in a scope and then outwards. -/
def lookup? (s : Scopes) (id : ScopeId) (name : String) : Option BindingId :=
  (s.chain id).findSome? fun scope => (s.scope scope).names[name]?

/-- The scope of the first of the given nodes that owns one. A switch statement is passed over
for what stands in its discriminant, which is the node before. -/
def scopeAmong? (s : Scopes) (t : Tree) (inner : Option NodeId) : List NodeId → Option ScopeId
  | [] => none
  | node :: outer =>
    let outside : Bool := match t.node node with
      | .switch discriminant _ => inner = some discriminant
      | _ => false
    match if outside then none else s.owned[node]? with
    | some scope => some scope
    | none => s.scopeAmong? t (some node) outer

def namedFunction? (t : Tree) (id : NodeId) : Option NodeId := do
  let parent ← t.parent? id
  let f ← (t.node parent).function?
  if f.name = some id ∧ f.kind = .declaration then some parent else none

/-- The scope that names are resolved in at a node. The name of a function declaration belongs
to the scope around the function. -/
def scopeAt? (s : Scopes) (t : Tree) (at_ : NodeId) : Option ScopeId :=
  match namedFunction? t at_ with
  | some function => s.scopeAmong? t (some function) (t.ancestors function)
  | none => s.scopeAmong? t none (at_ :: t.ancestors at_)

/-- The binding of a name as seen from a node. -/
def resolve? (s : Scopes) (t : Tree) (at_ : NodeId) (name : String) : Option BindingId := do
  s.lookup? (← s.scopeAt? t at_) name

/-- Whether a node runs some of its parts not at all or more than once. -/
def isConditional : Node NodeId → Bool
  | .if_ .. | .while_ .. | .for_ .. | .switch .. | .switchCase .. | .conditional ..
  | .logical .. => true
  | _ => false

/-- Whether a declaration runs every time the body of its scope runs. -/
def isUnconditional (s : Scopes) (t : Tree) (id : BindingId) : Bool :=
  let b := s.binding id
  let owner := (s.scope b.scope).node
  let between := (t.ancestors b.declaration).takeWhile (· ≠ owner)
  owner ∈ t.ancestors b.declaration && !between.any fun node => isConditional (t.node node)

end Scopes

end Unravel
