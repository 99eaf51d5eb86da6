import Unravel.Simplify.Basic
import Unravel.Simplify.Chain
import Unravel.Simplify.Shape
import Unravel.Tree.Graft

/-!
Aliases: variables that are never written and were initialized with a bare name. Each links to
what that name means, and a use of an alias becomes the name at the end of its chain of links,
provided that means the same at the use.
-/

namespace Unravel.Alias

/-- The links of a program: from an alias to the binding it copies, or to the global it names. -/
structure Links where
  next : Std.HashMap BindingId BindingId
  globals : Std.HashMap BindingId String

namespace Links

/-- Adds the link of a binding, if it is an alias. Links lead backwards in source order. -/
def add (p : Program) (links : Links) (binding : BindingId) : Links :=
  match if p.isConstantVariable binding then p.initialized? binding else none with
  | none => links
  | some (declarator, init) =>
    match (p.node init).identifier?, p.bindingOf? init with
    | some name, none => { links with globals := links.globals.insert binding name }
    | some _, some target =>
      let ordered := (p.declaratorOf? target).all fun (other, _) =>
        p.tree.precedes other declarator
      if target ≠ binding && ordered then
        { links with next := links.next.insert binding target }
      else links
    | none, _ => links

def ofProgram (p : Program) : Links :=
  (p.scopes.liveIds).foldl (add p) ⟨∅, ∅⟩

def origin? (p : Program) (links : Links) (start : BindingId) :
    Option (String × Option BindingId) :=
  let last := Chain.last links.next start
  match links.globals[last]? with
  | some name => some (name, none)
  | none =>
    let b := p.binding last
    if last ≠ start && b.isConstant then some (b.name, some last) else none

def target? (p : Program) (links : Links) (site : NodeId) (start : BindingId) :
    Option String := do
  let (declarator, _) ← p.declaratorOf? start
  let (name, expected) ← links.origin? p start
  if p.tree.precedes declarator site && p.resolve? site name = expected then some name else none

end Links

def collapse (links : Links) (site : NodeId) : SimplifyM Bool := do
  let p ← SimplifyM.program
  match (p.usedBinding? site).bind (links.target? p site) with
  | none => return false
  | some name =>
    let placed ← SimplifyM.replace site (← SimplifyM.build (Tree.identifier name))
    SimplifyM.record .aliasCollapsed placed (p.snippet site ++ " → " ++ name)
    return true

/-- Collapses the aliases at some places. The links are those at the start. -/
def collapseAt (sites : List NodeId) : SimplifyM Bool := do
  let links := Links.ofProgram (← SimplifyM.program)
  SimplifyM.anyChange sites fun site => SimplifyM.ifAttached site (collapse links site)

/-- The initializer of a declarator, if it is a bare name. -/
def namedInit? (p : Program) (id : NodeId) : Option NodeId :=
  match p.node id with
  | .variableDeclarator _ (some init) => if (p.node init).isIdentifier then some init else none
  | _ => none

def runInitializers : SimplifyM Bool := do
  let p ← SimplifyM.program
  collapseAt (p.nodes.filterMap (namedInit? p))

def isUseSite (p : Program) (id : NodeId) : Bool :=
  (p.node id).isIdentifier &&
    match (p.tree.parent? id).map p.node with
    | some (.call callee _) => callee = id
    | some (.member base _ _) => base = id
    | _ => false

def runUses : SimplifyM Bool := do
  collapseAt (← SimplifyM.nodesWhere isUseSite)

end Unravel.Alias
