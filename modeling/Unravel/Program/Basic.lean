import Unravel.Scope.Resolve
import Unravel.Source.Print

/-!
A program: a tree with its root and the table of scopes and bindings that belongs to it.

Main definition: `Program.verify` compares the maintained table with a fresh one, binding by
binding.
-/

namespace Unravel

/-- A program. It is stale when names outside a removed declaration still refer to it, so that
the table has to be made anew at the next change. -/
structure Program where
  tree : Tree
  root : NodeId
  scopes : Scopes
  stale : Bool
deriving Inhabited

namespace Program

/-- The program at a root, which must be a program node. -/
def ofTree (tree : Tree) (root : NodeId) : Except Error Program :=
  match tree.node root with
  | .program _ => do return ⟨tree, root, ← Scopes.ofTree tree root, false⟩
  | node => .error (.noProgram node.kindName)

def node (p : Program) (id : NodeId) : Node NodeId := p.tree.node id

def source (p : Program) : String := p.tree.source p.root

/-- The nodes of the program in source order, each before its children. -/
def nodes (p : Program) : List NodeId := p.tree.descendants p.root

/-- The binding an identifier belongs to. -/
def bindingOf? (p : Program) (id : NodeId) : Option BindingId := p.scopes.bindingOf? id

def binding (p : Program) (id : BindingId) : Binding := p.scopes.binding id

/-- The binding of a name as seen from a node. -/
def resolve? (p : Program) (at_ : NodeId) (name : String) : Option BindingId :=
  p.scopes.resolve? p.tree at_ name

def scopeAt? (p : Program) (at_ : NodeId) : Option ScopeId := p.scopes.scopeAt? p.tree at_

/-- Whether the node is the root or hangs below it. -/
def isAttached (p : Program) (id : NodeId) : Bool :=
  id = p.root || (p.tree.ancestors id).getLast? = some p.root

/-- Runs a change of the tree that leaves the program's own nodes alone. -/
def allocate {α : Type} (action : StateM Tree α) (p : Program) : α × Program :=
  let (result, tree) := action.run p.tree
  (result, { p with tree })

/-- Makes the table anew. -/
def rescope (p : Program) : Except Error Program := do
  return { p with scopes := ← Scopes.ofTree p.tree p.root, stale := false }

/-- Handles in ascending order. -/
def sortedIds (ids : List NodeId) : List NodeId :=
  ids.mergeSort fun a b => a.index ≤ b.index

/-- How the maintained binding differs from the one that a fresh table has. -/
def discrepancy? (p : Program) (expected : Binding) : Option Discrepancy :=
  let actual? := (p.bindingOf? expected.identifier).map p.binding
  match actual?.filter fun b => !b.retired && b.identifier = expected.identifier with
  | none => some .missing
  | some actual =>
    let references := sortedIds actual.references
    let mutations := sortedIds actual.mutations
    if references ≠ sortedIds expected.references then
      some (.references references (sortedIds expected.references))
    else if mutations ≠ sortedIds expected.mutations then
      some (.mutations mutations (sortedIds expected.mutations))
    else none

/-- Succeeds if the maintained table has the bindings of a fresh one, with the same identifiers
reading and writing each. -/
def verify (p : Program) : Except Error Unit := do
  let fresh ← Scopes.ofTree p.tree p.root
  for expected in fresh.live do
    if let some discrepancy := p.discrepancy? expected then
      throw (.diverged expected.name discrepancy)
  for maintained in p.scopes.live do
    if (fresh.bindingOf? maintained.identifier).isNone then
      throw (.diverged maintained.name .gone)

end Program

end Unravel
