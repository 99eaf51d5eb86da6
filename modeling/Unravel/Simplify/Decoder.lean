import Unravel.Eval.Expression
import Unravel.Simplify.Basic
import Unravel.Simplify.Shape

/-!
Dispatchers: functions whose results the host computes. Calls with known arguments, through the
dispatcher's name or that of an alias, become their results. Aliases are then replaced by what
they copy and go away where nothing else uses them.
-/

namespace Unravel.Decoder

/-- A variable that copies the dispatcher or another alias of it. -/
structure Alias where
  declarator : NodeId
  name : String
  target : String
deriving Inhabited

/-- A declarator that copies a name: its own node, the name it declares and the name it copies. -/
structure Copy where
  declarator : NodeId
  declared : NodeId
  copied : String

def copy? (p : Program) (id : NodeId) : Option Copy :=
  match p.node id with
  | .variableDeclarator target (some init) =>
    (p.node init).identifier?.map fun name => ⟨id, target, name⟩
  | _ => none

def Copy.alias? (p : Program) (name : String) (copy : Copy) : Option Alias := do
  let binding ← p.bindingOf? copy.declared
  let b := p.binding binding
  if copy.copied = name && b.identifier = copy.declared && p.isConstantVariable binding then
    some ⟨copy.declarator, b.name, name⟩
  else none

/-- Adds an alias unless one of its name is known already. -/
def addAlias (known : List String × List Alias) (a : Alias) : List String × List Alias :=
  if a.name ∈ known.1 then known else (a.name :: known.1, known.2 ++ [a])

/-- Finds the aliases of the names on a stack, the top one and its own aliases first. Every name
is put on the stack once, so a step for each declarator and one more are enough. -/
def search (p : Program) (copies : List Copy) :
    Nat → List String → List String → List Alias → List Alias
  | 0, _, _, found => found
  | _, [], _, found => found
  | limit + 1, name :: stack, visited, found =>
    let (visited, fresh) := (copies.filterMap (Copy.alias? p name)).foldl addAlias (visited, [])
    search p copies limit ((fresh.map (·.name)).reverse ++ stack) visited (found ++ fresh)

/-- The aliases of a dispatcher in the order of their discovery. -/
def aliases (p : Program) (name : String) : List Alias :=
  let copies := p.nodes.filterMap (copy? p)
  search p copies (copies.length + 1) [name] [name] []

/-- The result of a call of a dispatcher. -/
def result? (p : Program) (primitive : Primitive) (call : NodeId) : Option Value :=
  match p.node call with
  | .call _ arguments => (arguments.mapM p.evaluate?).bind primitive
  | _ => none

def callsOneOf (names : List String) (p : Program) (id : NodeId) : Bool :=
  match p.node id with
  | .call callee _ => (p.node callee).identifier?.any (· ∈ names)
  | _ => false

def callStep (primitive : Primitive) (call : NodeId) : SimplifyM Bool := do
  match result? (← SimplifyM.program) primitive call with
  | none => return false
  | some value =>
    let encoded ← SimplifyM.build value.encode
    SimplifyM.replaceAndRecord .dispatcherResolved "" call encoded
    return true

/-- Replaces a use of an alias by the name it copies, if that means what it meant where the
alias was initialized. -/
def redirect (a : Alias) (meaning : Option BindingId) (reference : NodeId) :
    SimplifyM Bool := do
  if (← SimplifyM.program).resolve? reference a.target = meaning then
    discard (SimplifyM.replace reference (← SimplifyM.build (Tree.identifier a.target)))
    return true
  else return false

def removeStep (a : Alias) (declared : NodeId) : SimplifyM Bool := do
  let p ← SimplifyM.program
  let spent := (p.bindingOf? declared).any fun binding =>
    !(p.binding binding).isReferenced && (p.binding binding).isConstant
  if spent then
    SimplifyM.remove a.declarator
    SimplifyM.record .declarationRemoved a.declarator
      ("alias " ++ a.name ++ " of " ++ a.target)
    return true
  else return false

def aliasStep (a : Alias) : SimplifyM Bool := do
  let p ← SimplifyM.program
  match p.node a.declarator with
  | .variableDeclarator declared (some init) =>
    match p.bindingOf? declared with
    | none => return false
    | some binding =>
      let redirected ← SimplifyM.anyChange (p.binding binding).references
        (redirect a (p.bindingOf? init))
      let removed ← removeStep a declared
      return redirected || removed
  | _ => return false

def run (name : String) (primitive : Primitive) : SimplifyM Bool := do
  let found := aliases (← SimplifyM.program) name
  for a in found do
    SimplifyM.record .dispatcherIdentified a.declarator (a.name ++ " → " ++ a.target)
  let names := name :: found.map (·.name)
  let resolved ← SimplifyM.visit (callsOneOf names) (callStep primitive)
  let retired ← SimplifyM.anyChange found.reverse fun a =>
    SimplifyM.ifAttached a.declarator (aliasStep a)
  return resolved || retired

end Unravel.Decoder
