import Unravel.Program.Edit

/-!
The changes of a program step by step. A step that fails changes nothing, but what the steps
before it have changed stays changed: nothing is undone.

`Program.replace` and `Program.remove` give what comes of all steps together.
-/

namespace Unravel

/-- Puts `new` into the place of `old`, which becomes detached; `none` if no node holds
`old`. -/
def Tree.replace? (t : Tree) (old new : NodeId) : Option Tree := do
  let parent ← t.parent? old
  let node ← (t.node parent).replaceChild? old new
  return ((t.setNode parent node).setParent new (some parent)).setParent old none

/-- Steps that change a program. -/
abbrev EditM := EStateM Error Program

namespace EditM

/-- One step, which changes the program as a whole or fails and leaves it. -/
def atOnce {α : Type} (f : Program → Except Error (α × Program)) : EditM α := fun p =>
  match f p with
  | .ok (result, after) => .ok result after
  | .error e => .error e p

/-- Fails unless the program passes a test. -/
def require (test : Program → Bool) (e : Error) : EditM Unit :=
  atOnce fun p => if test p then .ok ((), p) else .error e

/-- A step that never fails. -/
def change {α : Type} (f : Program → α × Program) : EditM α := atOnce fun p => .ok (f p)

def changeTree (f : Tree → Option Tree) (refused : Error) : EditM Unit := atOnce fun p =>
  match f p.tree with
  | some tree => .ok ((), { p with tree })
  | none => .error refused

/-- Makes a stale table anew. -/
def rescopeStale : EditM Unit := atOnce fun p =>
  if p.stale then do return ((), ← p.rescope) else .ok ((), p)

def fixReferences (node : NodeId) : EditM Unit := atOnce fun p => do
  return ((), ← p.fixReferences node)

/-- Replaces a node in the tree between dropping what leaves and attaching what comes in. -/
def replace (target replacement : NodeId) : EditM NodeId := do
  require (·.isAttached target) (.detached target)
  require (fun p => target ≠ p.root) .rootReplaced
  require (fun p => replacement ≠ p.root ∧ p.tree.parent? replacement = none)
    (.attached replacement)
  let placed ← change (·.unwrap target replacement)
  change fun p => ((), p.removeReferences target)
  changeTree (·.replace? target placed) (.detached target)
  fixReferences placed
  return placed

def blank (target parent : NodeId) : EditM Unit := do
  let p ← get
  require (fun p => (p.node target).isStatement)
    (.requiredPart (p.node target).kindName (p.node parent).kindName)
  let empty ← change (·.allocate (Tree.alloc .empty))
  discard (replace target empty)

/-- Takes a node out of a list or an optional field. -/
def detach (target : NodeId) : EditM Unit := do
  change fun p => ((), p.removeReferences target)
  changeTree (·.detach? target) (.detached target)
  rescopeStale

def takeAway (target : NodeId) : EditM Unit := do
  match (← get).tree.slot? target with
  | none => throw .rootRemoved
  | some (parent, .required) => blank target parent
  | some _ => detach target

/-- Removes a node with the given strict ancestors, or its declaration if it is an only
declarator. -/
def removeBelow (target : NodeId) : List NodeId → EditM Unit
  | [] => do
    require (·.isAttached target) (.detached target)
    takeAway target
  | parent :: outer => do
    require (·.isAttached target) (.detached target)
    require (fun p => (p.tree.slot? target).isSome) .rootRemoved
    match (← get).node parent with
    | .variableDeclaration _ [_] => removeBelow parent outer
    | _ => takeAway target

def remove (target : NodeId) : EditM Unit := do
  removeBelow target ((← get).tree.ancestors target)

end EditM

end Unravel
