import Unravel.Simplify.Basic
import Unravel.Simplify.Shape

/-!
Uses of constants: a variable that is never written and was initialized with a literal, or with
a name that means the same at every use, is replaced by its initializer and goes away. Every use
has to stand after the declaration.
-/

namespace Unravel.ConstantUse

def isDeclarator : Node NodeId → Bool
  | .variableDeclarator .. => true
  | _ => false

/-- Whether an initializer means the same at all uses of its variable. -/
def isStable (p : Program) (binding : BindingId) (init : NodeId) : Bool :=
  p.tree.isLiteralValue init ||
    match (p.node init).identifier? with
    | none => false
    | some name =>
      let target := p.bindingOf? init
      target.all (fun target => target ≠ binding && (p.binding target).isConstant)
        && (p.binding binding).references.all fun use => p.resolve? use name = target

structure Plan where
  target : NodeId
  init : NodeId
  uses : List NodeId

/-- The variable of a declarator that can be replaced by its initializer. -/
def plan? (p : Program) (c : Context) (declarator : NodeId) : Option Plan :=
  match p.node declarator with
  | .variableDeclarator target (some init) => do
    let binding ← p.bindingOf? target
    let b := p.binding binding
    if b.identifier = target && p.isConstantVariable binding && !c.isProtected b.name
      && b.isReferenced && b.references.all (p.tree.precedes declarator)
      && isStable p binding init then
      some ⟨target, init, b.references⟩
    else none
  | _ => none

def step (declarator : NodeId) : SimplifyM Bool := do
  match plan? (← SimplifyM.program) (← SimplifyM.context) declarator with
  | none => return false
  | some plan =>
    let value ← SimplifyM.snippet plan.init
    let name ← SimplifyM.snippet plan.target
    for use in plan.uses do
      discard (SimplifyM.replace use (← SimplifyM.build (Tree.copy plan.init)))
    SimplifyM.remove declarator
    SimplifyM.record .constantInlined declarator
      (name ++ " → " ++ value ++ " (" ++ toString plan.uses.length ++ " uses)")
    return true

def run : SimplifyM Bool :=
  SimplifyM.visit (fun p id => isDeclarator (p.node id)) step

end Unravel.ConstantUse
