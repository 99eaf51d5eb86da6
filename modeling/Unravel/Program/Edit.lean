import Unravel.Program.Basic

/-!
Changing a program. Each change first drops the identifiers of what goes away from their
bindings, then changes the tree, and last attaches the identifiers of what comes in to the
bindings they have at their new place.

An edit that fails leaves the program as it was: all conditions are tested before the first
change.
-/

namespace Unravel.Program

/-- Drops what a node contributes to the table: its scope and its use of a binding. Also says
which binding it declared. -/
def forgetNode (p : Program) (id : NodeId) : Program × Option BindingId :=
  let p := if (p.tree.scopeKind? id).isSome then { p with scopes := p.scopes.forget id } else p
  if (p.node id).isIdentifier then
    match p.bindingOf? id with
    | some binding =>
      ({ p with scopes := p.scopes.detach id },
        if (p.binding binding).identifier = id then some binding else none)
    | none => (p, none)
  else (p, none)

/-- Retires a binding whose declaration goes away. If something still refers to it, the table
is stale. -/
def release (p : Program) (id : BindingId) : Program :=
  let b := p.binding id
  if b.references.isEmpty && b.mutations.isEmpty then { p with scopes := p.scopes.retire id }
  else { p with stale := true }

/-- Drops everything at and below a node from the table. -/
def removeReferences (p : Program) (root : NodeId) : Program :=
  let (p, declared) := (p.tree.descendants root).foldl (fun (p, declared) id =>
    match p.forgetNode id with
    | (p, some binding) => (p, declared ++ [binding])
    | (p, none) => (p, declared)) (p, [])
  declared.foldl release p

/-- Whether a node can change what names elsewhere mean. -/
def introducesNames (p : Program) (id : NodeId) : Bool :=
  match p.node id with
  | .variableDeclaration .. | .function _ | .classDef _ => true
  | _ => (p.tree.scopeKind? id).isSome

/-- Attaches the identifiers at and below a node to the bindings they have where they stand.
Where names are declared or scopes opened, the whole table is made anew. -/
def fixReferences (p : Program) (root : NodeId) : Except Error Program :=
  let nodes := p.tree.descendants root
  if !p.isAttached root then .error (.detached root)
  else if p.stale || nodes.any p.introducesNames then p.rescope
  else
    let attachNew (s : Scopes) (id : NodeId) : Scopes :=
      if (s.bindingOf? id).isSome then s else Scopes.attachUse p.tree s id
    .ok { p with scopes := nodes.foldl attachNew p.scopes }

/-- Whether a statement belongs to the block around it, so that the block has to stay. -/
def isLexical : Node NodeId → Bool
  | .variableDeclaration kind _ => kind ≠ .var
  | .function _ | .classDef _ => true
  | _ => false

def soleStatement? (p : Program) (id : NodeId) : Option NodeId :=
  match p.node id with
  | .block [inner] => if isLexical (p.node inner) then none else some inner
  | _ => none

def unwrap (p : Program) (target replacement : NodeId) : NodeId × Program :=
  match if (p.node target).isStatement then p.soleStatement? replacement else none with
  | none => (replacement, p)
  | some inner =>
    match p.tree.detach? inner with
    | some tree => (inner, { p with tree })
    | none => (replacement, p)

/-- Puts a detached node into the place of an attached one and says which node it was: a block
with one statement gives that statement. -/
def replace (p : Program) (target replacement : NodeId) : Except Error (NodeId × Program) := do
  if !p.isAttached target then throw (.detached target)
  if target = p.root then throw .rootReplaced
  if replacement = p.root ∨ (p.tree.parent? replacement).isSome then throw (.attached replacement)
  let (placed, p) := p.unwrap target replacement
  let p := p.removeReferences target
  let p ← fixReferences { p with tree := p.tree.replace target placed } placed
  return (placed, p)

/-- What is removed for a node: the whole declaration for its only declarator. -/
def removalTarget (p : Program) (target : NodeId) : List NodeId → NodeId
  | [] => target
  | parent :: outer =>
    match p.node parent with
    | .variableDeclaration _ [_] => p.removalTarget parent outer
    | _ => target

/-- Removes an attached node. Elements of lists and optional parts are taken out, and a
statement that has to be there becomes the empty statement. -/
def remove (p : Program) (target : NodeId) : Except Error Program := do
  if !p.isAttached target then throw (.detached target)
  let target := p.removalTarget target (p.tree.ancestors target)
  match p.tree.slot? target with
  | none => throw .rootRemoved
  | some (parent, .required) =>
    if (p.node target).isStatement then
      let (empty, p) := p.allocate (Tree.alloc .empty)
      return (← p.replace target empty).2
    else throw (.requiredPart (p.node target).kindName (p.node parent).kindName)
  | some _ =>
    let p := p.removeReferences target
    match p.tree.detach? target with
    | none => throw (.detached target)
    | some tree =>
      let p := { p with tree }
      if p.stale then p.rescope else return p

end Unravel.Program
