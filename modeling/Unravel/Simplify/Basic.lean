import Unravel.Program.Stepwise
import Unravel.Simplify.Context
import Unravel.Text.Blank

/-!
Simplification: changes of a program that are recorded in a journal. One that fails keeps
what it has done so far.

A rule looks for its candidates first and then visits each one that is still in the program
(`SimplifyM.visit`); it says whether it changed anything.
-/

namespace Unravel

/-- A program with the context in which it is simplified. -/
structure Workspace where
  program : Program
  context : Context
deriving Inhabited

abbrev SimplifyM := EStateM Error Workspace

def Program.snippet (p : Program) (id : NodeId) : String :=
  Text.truncate (Text.trimEnd (p.tree.source id)) 80

namespace SimplifyM

def program : SimplifyM Program := return (← get).program

def context : SimplifyM Context := return (← get).context

/-- Changes the program, or fails and leaves it. -/
def edit {α : Type} (f : Program → Except Error (α × Program)) : SimplifyM α := fun w =>
  match f w.program with
  | .ok (result, program) => .ok result { w with program }
  | .error e => .error e w

/-- Changes the program step by step; what fails keeps what the steps before it have changed. -/
def stepwise {α : Type} (steps : EditM α) : SimplifyM α := fun w =>
  match steps w.program with
  | .ok result program => .ok result { w with program }
  | .error e program => .error e { w with program }

def build {α : Type} (action : StateM Tree α) : SimplifyM α :=
  edit fun p => .ok (p.allocate action)

/-- Puts a detached node into the place of another one. -/
def replace (target replacement : NodeId) : SimplifyM NodeId :=
  edit fun p => p.replace target replacement

def remove (target : NodeId) : SimplifyM Unit :=
  edit fun p => do return ((), ← p.remove target)

def log (e : Event) : SimplifyM Unit :=
  modify fun w => { w with context := { w.context with journal := w.context.journal.record e } }

def record (kind : EventKind) (node : NodeId) (message : String) : SimplifyM Unit :=
  log ⟨kind, message, some node, none⟩

def snippet (id : NodeId) : SimplifyM String := return (← program).snippet id

def replaceAndRecord (kind : EventKind) (label : String) (target replacement : NodeId) :
    SimplifyM Unit := do
  let before ← snippet target
  let placed ← replace target replacement
  record kind placed (label ++ before ++ " → " ++ (← snippet placed))

/-- Whether any step reports a change; all of them are made. -/
def anyChange {α : Type} (items : List α) (step : α → SimplifyM Bool) : SimplifyM Bool :=
  items.foldlM (fun changed item => return (← step item) || changed) false

/-- Makes a step at a node if that is still in the program. -/
def ifAttached (id : NodeId) (step : SimplifyM Bool) : SimplifyM Bool := do
  if (← program).isAttached id then step else return false

def nodesWhere (test : Program → NodeId → Bool) : SimplifyM (List NodeId) := do
  let p ← program
  return p.nodes.filter (test p)

/-- Visits all nodes that pass a test and are still in the program when their turn comes. -/
def visit (test : Program → NodeId → Bool) (step : NodeId → SimplifyM Bool) : SimplifyM Bool := do
  anyChange (← nodesWhere test) fun id => ifAttached id (step id)

end SimplifyM

end Unravel
