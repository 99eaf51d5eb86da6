import Unravel.Eval.Builtin
import Unravel.Eval.Method
import Unravel.Eval.Operation
import Unravel.Program.Basic
import Unravel.Value.Encode

/-!
The value that an expression is certain to have. Only literals, names of constants, operators
and the functions known here have one, so an expression with a value has no effects.

`Program.evaluate? p id` follows at most 65 nested expressions and names of constants.
-/

namespace Unravel

def globalValue? : String → Option Value
  | "undefined" => some .undefined
  | "NaN" => some (.number nan)
  | "Infinity" => some (.number infinity)
  | _ => none

/-- Sets an entry of an object: a key that is there already keeps its place. -/
def Value.setEntry (key : String) (value : Value) :
    List (String × Value) → List (String × Value)
  | [] => [(key, value)]
  | (k, v) :: rest =>
    if k = key then (k, value) :: rest else (k, v) :: setEntry key value rest

namespace Program

/-- Whether a name means a global at a node. -/
def isUnbound (p : Program) (at_ : NodeId) (name : String) : Bool :=
  (p.resolve? at_ name).isNone

/-- The initializer whose value a bound identifier is certain to have: that of a variable which
is never written, whose declaration always runs and stands before the identifier. -/
def constantInit? (p : Program) (id : NodeId) (binding : BindingId) : Option NodeId :=
  let b := p.binding binding
  if b.isConstant && p.scopes.isUnconditional p.tree binding && b.kind.isVariable then
    match p.node b.declaration with
    | .variableDeclarator target (some init) =>
      if target = b.identifier && !p.tree.isWithin id b.declaration
        && p.tree.precedes b.declaration id then some init else none
    | _ => none
  else none

def keyText? (v : Value) : Option String := if v.isPrimitive then some v.toText else none

/-- The value of an expression of at most `limit` nested levels. -/
def evaluateWithin (p : Program) : Nat → NodeId → Option Value
  | 0, _ => none
  | limit + 1, id =>
    let eval := p.evaluateWithin limit
    match p.node id with
    | .literal value => some (Value.ofLiteral value)
    | .identifier name =>
      match p.bindingOf? id with
      | none => globalValue? name
      | some binding => do
        -- Names stand for primitive values only: an object can change through any alias.
        let value ← eval (← p.constantInit? id binding)
        if value.isPrimitive then some value else none
    | .array elements => do return .array (← elements.mapM eval)
    | .object properties => do
      let entries ← properties.foldlM (fun entries property =>
        match p.node property with
        | .property key value computed => do
          let key ← match p.node key, computed with
            | .identifier name, false => some name
            | .literal value, false => some (Value.ofLiteral value).toText
            | _, true => (eval key).bind keyText?
            | _, false => none
          return Value.setEntry key (← eval value) entries
        | _ => none) []
      return .object entries
    | .unary operator argument =>
      if operator = .typeOf && (p.node argument).isFunction then some (.string "function")
      else (eval argument).bind operator.result?
    | .binary operator left right => do operator.result? (← eval left) (← eval right)
    | .logical operator left right => do
      let value ← eval left
      if operator.keepsLeft value then some value else eval right
    | .conditional test consequent alternate => do
      if (← eval test).toBool then eval consequent else eval alternate
    | .sequence expressions => do (← expressions.mapM eval).getLast?
    | .member base key computed => do
      let key ← if computed then (eval key).bind keyText? else (p.node key).identifier?
      match (p.node base).identifier?.filter (p.isUnbound id) with
      | some "Math" => (Builtin.mathConstant? key).map .number
      | some "Number" => (Builtin.numberConstant? key).map .number
      | some _ => none
      | none => Method.property? (← eval base) key
    | .call callee arguments => do
      let args ← arguments.mapM eval
      match p.node callee with
      | .identifier name => if p.isUnbound id name then Builtin.global? name args else none
      | .member base key computed =>
        let method ← if computed then (eval key).bind Value.asString? else (p.node key).identifier?
        match (p.node base).identifier?.filter (p.isUnbound id) with
        | some "Math" => Builtin.math? method args
        | some "String" => Builtin.string? method args
        | some "Number" => Builtin.number? method args
        | _ => Method.call? (← eval base) method args
      | _ => none
    | _ => none

/-- The value that an expression is certain to have. -/
def evaluate? (p : Program) (id : NodeId) : Option Value := p.evaluateWithin 65 id

end Program

end Unravel
