import Unravel.Simplify.Basic
import Unravel.Simplify.Shape
import Unravel.Tree.Graft

/-!
Functions as templates. A function whose body is one return statement stands for the returned
expression, in which every use of a parameter is replaced by a copy of its argument.

A call may be expanded where every other name of the expression means the same thing as inside
the function (`Program.meansSameAt`).
-/

namespace Unravel

namespace Program

def writesParameters (p : Program) (function : NodeId) : Bool :=
  p.scopes.live.any fun b =>
    b.kind = .param && b.declaration = function && !b.mutations.isEmpty

/-- The expression that calls of a function can be replaced by. -/
def template? (p : Program) (function : NodeId) : Option NodeId := do
  let f ← (p.node function).function?
  let expression ← p.tree.singleReturn? function
  if f.isGenerator || f.isAsync || p.tree.usesReceiver expression || p.isSelfRecursive function
    || p.writesParameters function then none
  else some expression

/-- Whether a binding belongs to a template itself: a parameter of its function or a name
declared inside its expression. -/
def isTemplateOwn (p : Program) (function expression : NodeId) (binding : BindingId) : Bool :=
  let b := p.binding binding
  (b.declaration = function && b.kind = .param) || p.tree.isWithin b.declaration expression

/-- Whether the free names of a template mean the same at another place. -/
def meansSameAt (p : Program) (function expression site : NodeId) : Bool :=
  (p.tree.descendants expression).all fun id =>
    match (p.node id).identifier? with
    | none => true
    | some name =>
      let bound := p.bindingOf? id
      !(p.tree.role id).isUse || bound.any (p.isTemplateOwn function expression)
        || p.resolve? site name = bound

end Program

/-- How a parameter takes its argument. -/
inductive ParamForm where
  | plain
  | defaulted (value : NodeId)
  | rest

structure Param where
  binding : Option BindingId
  form : ParamForm

/-- The parameter at a node. Patterns are refused. -/
def Program.param (p : Program) (id : NodeId) : Except Error Param :=
  let refused : Except Error Param := .error (.parameterKind (p.node id).kindName)
  match p.node id with
  | .identifier _ => .ok ⟨p.bindingOf? id, .plain⟩
  | .assignmentPattern left right =>
    if (p.node left).isIdentifier then .ok ⟨p.bindingOf? left, .defaulted right⟩ else refused
  | .restElement argument =>
    if (p.node argument).isIdentifier then .ok ⟨p.bindingOf? argument, .rest⟩ else refused
  | _ => refused

/-- A call to be expanded. -/
structure Expansion where
  params : List Param
  arguments : List NodeId

namespace Expansion

/-- The parameter that an identifier uses, with its position. Of two parameters with one
binding it is the last one. -/
def paramOf? (e : Expansion) (p : Program) (id : NodeId) : Option (Param × Nat) :=
  if (p.node id).isIdentifier && (p.tree.role id).reads then
    (p.bindingOf? id).bind fun binding =>
      e.params.zipIdx.reverse.find? fun (param, _) => param.binding = some binding
  else none

/-- The identifiers of an expression that use a parameter. -/
def uses (e : Expansion) (p : Program) (expression : NodeId) :
    List (NodeId × Param × Nat) :=
  (p.tree.descendants expression).filterMap fun id => (e.paramOf? p id).map ((id, ·))

def restArray (arguments : List NodeId) : StateM Tree NodeId := do
  Tree.alloc (.array (← arguments.mapM Tree.copy))

/-- A copy of an expression with every use of a parameter replaced by its argument. Default
values, which are expanded in turn, may nest to the given depth. -/
def expand (e : Expansion) : Nat → NodeId → SimplifyM NodeId
  | 0, _ => throw (.tooDeep 65)
  | limit + 1, expression => do
    let uses := e.uses (← SimplifyM.program) expression
    let (root, copies) ← SimplifyM.build (Tree.copyMapped expression)
    uses.foldlM (fun root (id, param, index) => do
      let supplied := e.arguments[index]?
      let value ← match param.form, supplied with
        | .plain, some argument => SimplifyM.build (Tree.copy argument)
        | .plain, none => SimplifyM.build (Tree.identifier "undefined")
        | .rest, _ => SimplifyM.build (restArray (e.arguments.drop index))
        | .defaulted value, none => e.expand limit value
        | .defaulted value, some argument =>
          if ((← SimplifyM.program).node argument).isIdentifierNamed "undefined" then
            e.expand limit value
          else SimplifyM.build (Tree.copy argument)
      let copy := copies.getD id id
      if copy = root then return value
      else
        SimplifyM.build (modify fun t => t.replace copy value)
        return root) root

end Expansion

namespace SimplifyM

def instantiate (function : NodeId) (arguments : List NodeId) : SimplifyM NodeId := do
  let p ← program
  match p.tree.singleReturn? function with
  | none => throw (.noSingleReturn (p.node function).kindName)
  | some expression =>
    let params := (((p.node function).function?.map (·.params)).getD []).mapM p.param
    let params ← edit fun p => params.map fun params => (params, p)
    Expansion.expand ⟨params, arguments⟩ 65 expression

/-- Replaces a call by the expression it stands for, unless a name would change its meaning. -/
def expandCall (function expression call : NodeId) (label : String) : SimplifyM Bool := do
  let p ← program
  match p.node call with
  | .call _ arguments =>
    if p.meansSameAt function expression call then
      let expanded ← instantiate function arguments
      replaceAndRecord .functionInlined (label ++ ": ") call expanded
      return true
    else return false
  | _ => return false

end SimplifyM

end Unravel
