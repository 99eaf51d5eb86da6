import Unravel.Simplify.Basic
import Unravel.Simplify.Shape
import Unravel.Tree.Graft

/-!
Classes in the form of functions: a constructor function with the assignments of its prototype
methods becomes a class declaration. Every use of the function has to come after it and be
either a `new` expression or such an assignment in the same statement list.
-/

namespace Unravel.ClassForm

def constructor? (p : Program) (c : Context) (function : NodeId) :
    Option (String × BindingId) := do
  let f ← (p.node function).function?
  let target ← f.name
  let name ← (p.node target).identifier?
  let binding ← p.bindingOf? target
  let b := p.binding binding
  if f.kind = .declaration && !f.isGenerator && !f.isAsync && p.tree.usesThis f.body
    && b.isConstant && b.isReferenced && !c.isProtected name then
    some (name, binding)
  else none

/-- A statement `F.prototype.name = function () {…};`. -/
structure Method where
  statement : NodeId
  name : String
  function : NodeId

/-- Whether a node is a plain function expression without a name. -/
def isPlainFunction (node : Node NodeId) : Bool :=
  node.function?.any fun f =>
    f.kind = .expression && f.name.isNone && !f.isGenerator && !f.isAsync

def dotted? (p : Program) (base : NodeId) : Option (NodeId × String) := do
  let member ← p.tree.parent? base
  match p.node member with
  | .member b key false => if b = base then return (member, ← (p.node key).identifier?) else none
  | _ => none

def method? (p : Program) (list reference : NodeId) : Option Method := do
  let (holder, key) ← dotted? p reference
  let (target, name) ← dotted? p holder
  let assignment ← p.tree.parent? target
  let statement ← p.tree.parent? assignment
  match p.node assignment, p.node statement with
  | .assignment .assign left right, .expressionStatement _ =>
    if key = "prototype" && left = target && isPlainFunction (p.node right)
      && p.tree.parent? statement = some list then
      some ⟨statement, name, right⟩
    else none
  | _, _ => none

def isNewCallee (p : Program) (reference : NodeId) : Bool :=
  match (p.tree.parent? reference).map p.node with
  | some (.new callee _) => callee = reference
  | _ => false

/-- Adds what a use of the name contributes to the methods found so far; `none` if the use
forbids a class. -/
def addUse (p : Program) (function list : NodeId) (methods : List Method) (reference : NodeId) :
    Option (List Method) :=
  if !p.tree.precedes function reference then none
  else if isNewCallee p reference then some methods
  else
    (method? p list reference).bind fun method =>
      if method.name = "constructor" || methods.any fun m => m.name = method.name then none
      else some (methods ++ [method])

/-- The methods of a constructor all of whose uses allow a class. -/
def methods? (p : Program) (function : NodeId) (binding : BindingId) : Option (List Method) := do
  let list ← p.tree.statementList? function
  (p.binding binding).references.foldlM (addUse p function list) []

def classOf (f : Function NodeId) (name : String) (methods : List Method) :
    StateM Tree NodeId := do
  let params ← f.params.mapM Tree.copy
  let body ← Tree.copy f.body
  let function ← Tree.alloc (.function ⟨.expression, none, params, body, false, false⟩)
  let first ← Tree.memberFunction .constructor "constructor" function
  let others ← methods.mapM fun method => do
    Tree.memberFunction .method method.name (← Tree.copy method.function)
  Tree.classDeclaration name (first :: others)

structure Plan where
  name : String
  function : Function NodeId
  methods : List Method

def plan? (p : Program) (c : Context) (function : NodeId) : Option Plan := do
  let (name, binding) ← constructor? p c function
  return ⟨name, ← (p.node function).function?, ← methods? p function binding⟩

def step (function : NodeId) : SimplifyM Bool := do
  match plan? (← SimplifyM.program) (← SimplifyM.context) function with
  | none => return false
  | some plan =>
    let class_ ← SimplifyM.build (classOf plan.function plan.name plan.methods)
    for method in plan.methods do SimplifyM.remove method.statement
    let placed ← SimplifyM.replace function class_
    SimplifyM.record .classReconstructed placed
      ("class " ++ plan.name ++ " (" ++ toString plan.methods.length ++ " methods)")
    return true

def run : SimplifyM Bool := SimplifyM.visit (fun p id => (p.node id).isFunction) step

end Unravel.ClassForm
