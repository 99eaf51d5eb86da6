import Unravel.Syntax.Operator

/-!
One node of a JavaScript syntax tree, over an arbitrary type of children. Statements and
expressions share the type, so a child can stand for either.

`Node.children` lists the children in source order. `Node.detachable` names the fields a child
can be taken out of, and `Node.slotOf`, `Node.replaceChild` and `Node.detachChild` are all
stated through these two.
-/

namespace Unravel

/-- The keyword of a variable declaration. -/
inductive VarKind where
  | var | let_ | const
deriving DecidableEq, Inhabited

def VarKind.spelling : VarKind → String
  | var => "var"
  | let_ => "let"
  | const => "const"

inductive FunctionKind where
  | declaration | expression
deriving DecidableEq, Inhabited

inductive MethodKind where
  | constructor | method
deriving DecidableEq, Inhabited

/-- A literal. The raw text of a string is its spelling in the source, quotes included. -/
inductive Literal where
  | string (value : String) (raw : Option String)
  | number (value : Float)
  | boolean (value : Bool)
  | null
deriving Inhabited

namespace Literal

def asString? : Literal → Option String
  | string value _ => some value
  | _ => none

def asNumber? : Literal → Option Float
  | number value => some value
  | _ => none

/-- Equality of the denoted values: raw spellings do not count, the two zeros differ and all
NaNs are one. -/
def agrees : Literal → Literal → Bool
  | string x _, string y _ => x = y
  | number x, number y => x.toBits = y.toBits || (x.isNaN && y.isNaN)
  | boolean x, boolean y => x = y
  | null, null => true
  | _, _ => false

end Literal

structure Function (α : Type) where
  kind : FunctionKind
  name : Option α
  params : List α
  body : α
  isGenerator : Bool
  isAsync : Bool
deriving Inhabited

structure ClassDef (α : Type) where
  name : Option α
  superClass : Option α
  members : List α
  isDeclaration : Bool
deriving Inhabited

/-- A syntax node whose children are of type `α`. -/
inductive Node (α : Type) where
  | program (body : List α)
  | expressionStatement (expression : α)
  | variableDeclaration (kind : VarKind) (declarations : List α)
  | variableDeclarator (target : α) (init : Option α)
  | function (function : Function α)
  | classDef (classDef : ClassDef α)
  | classMethod (kind : MethodKind) (key value : α) (isStatic : Bool)
  | block (body : List α)
  | return_ (argument : Option α)
  | if_ (test consequent : α) (alternate : Option α)
  | while_ (test body : α)
  | for_ (init test step : Option α) (body : α)
  | switch (discriminant : α) (cases : List α)
  | switchCase (test : Option α) (consequent : List α)
  | break_
  | continue_
  | empty
  | assignmentPattern (left right : α)
  | restElement (argument : α)
  | arrayPattern (elements : List α)
  | identifier (name : String)
  | literal (value : Literal)
  | this_
  | array (elements : List α)
  | object (properties : List α)
  | property (key value : α) (computed : Bool)
  | call (callee : α) (arguments : List α)
  | new (callee : α) (arguments : List α)
  | member (base key : α) (computed : Bool)
  | unary (operator : UnaryOp) (argument : α)
  | update (operator : UpdateOp) (leading : Bool) (argument : α)
  | binary (operator : BinaryOp) (left right : α)
  | logical (operator : LogicalOp) (left right : α)
  | assignment (operator : AssignOp) (left right : α)
  | conditional (test consequent alternate : α)
  | sequence (expressions : List α)
deriving Inhabited

/-- How a node holds one of its children. -/
inductive Slot where
  | required
  | optional
  | list (index : Nat)
deriving DecidableEq

namespace Node

variable {α β : Type}

def kindName : Node α → String
  | program .. => "Program"
  | expressionStatement .. => "ExpressionStatement"
  | variableDeclaration .. => "VariableDeclaration"
  | variableDeclarator .. => "VariableDeclarator"
  | function .. => "Function"
  | classDef .. => "Class"
  | classMethod .. => "ClassMethod"
  | block .. => "Block"
  | return_ .. => "Return"
  | if_ .. => "If"
  | while_ .. => "While"
  | for_ .. => "For"
  | switch .. => "Switch"
  | switchCase .. => "SwitchCase"
  | break_ => "Break"
  | continue_ => "Continue"
  | empty => "Empty"
  | assignmentPattern .. => "AssignmentPattern"
  | restElement .. => "RestElement"
  | arrayPattern .. => "ArrayPattern"
  | identifier .. => "Identifier"
  | literal .. => "Literal"
  | this_ => "This"
  | array .. => "Array"
  | object .. => "Object"
  | property .. => "Property"
  | call .. => "Call"
  | new .. => "New"
  | member .. => "Member"
  | unary .. => "Unary"
  | update .. => "Update"
  | binary .. => "Binary"
  | logical .. => "Logical"
  | assignment .. => "Assignment"
  | conditional .. => "Conditional"
  | sequence .. => "Sequence"

/-- The children in source order. -/
def children : Node α → List α
  | program body | block body => body
  | expressionStatement expression => [expression]
  | variableDeclaration _ declarations => declarations
  | variableDeclarator target init => target :: init.toList
  | function f => f.name.toList ++ f.params ++ [f.body]
  | classDef c => c.name.toList ++ c.superClass.toList ++ c.members
  | classMethod _ key value _ => [key, value]
  | return_ argument => argument.toList
  | if_ test consequent alternate => test :: consequent :: alternate.toList
  | while_ test body => [test, body]
  | for_ init test step body => init.toList ++ test.toList ++ step.toList ++ [body]
  | switch discriminant cases => discriminant :: cases
  | switchCase test consequent => test.toList ++ consequent
  | assignmentPattern left right => [left, right]
  | restElement argument | unary _ argument | update _ _ argument => [argument]
  | arrayPattern elements | array elements => elements
  | object properties => properties
  | property key value _ => [key, value]
  | call callee arguments | new callee arguments => callee :: arguments
  | member base key _ => [base, key]
  | binary _ left right | logical _ left right | assignment _ left right => [left, right]
  | conditional test consequent alternate => [test, consequent, alternate]
  | sequence expressions => expressions
  | break_ | continue_ | empty | identifier _ | literal _ | this_ => []

/-- Acts on the children in source order. -/
def traverse {m : Type → Type} [Monad m] (f : α → m β) : Node α → m (Node β)
  | program body => return program (← body.mapM f)
  | expressionStatement expression => return expressionStatement (← f expression)
  | variableDeclaration kind declarations =>
    return variableDeclaration kind (← declarations.mapM f)
  | variableDeclarator target init => return variableDeclarator (← f target) (← init.mapM f)
  | function g => do
    let name ← g.name.mapM f
    let params ← g.params.mapM f
    let body ← f g.body
    return function ⟨g.kind, name, params, body, g.isGenerator, g.isAsync⟩
  | classDef c => do
    let name ← c.name.mapM f
    let superClass ← c.superClass.mapM f
    let members ← c.members.mapM f
    return classDef ⟨name, superClass, members, c.isDeclaration⟩
  | classMethod kind key value isStatic => return classMethod kind (← f key) (← f value) isStatic
  | block body => return block (← body.mapM f)
  | return_ argument => return return_ (← argument.mapM f)
  | if_ test consequent alternate =>
    return if_ (← f test) (← f consequent) (← alternate.mapM f)
  | while_ test body => return while_ (← f test) (← f body)
  | for_ init test step body =>
    return for_ (← init.mapM f) (← test.mapM f) (← step.mapM f) (← f body)
  | switch discriminant cases => return switch (← f discriminant) (← cases.mapM f)
  | switchCase test consequent => return switchCase (← test.mapM f) (← consequent.mapM f)
  | break_ => return break_
  | continue_ => return continue_
  | empty => return empty
  | assignmentPattern left right => return assignmentPattern (← f left) (← f right)
  | restElement argument => return restElement (← f argument)
  | arrayPattern elements => return arrayPattern (← elements.mapM f)
  | identifier name => return identifier name
  | literal value => return literal value
  | this_ => return this_
  | array elements => return array (← elements.mapM f)
  | object properties => return object (← properties.mapM f)
  | property key value computed => return property (← f key) (← f value) computed
  | call callee arguments => return call (← f callee) (← arguments.mapM f)
  | new callee arguments => return new (← f callee) (← arguments.mapM f)
  | member base key computed => return member (← f base) (← f key) computed
  | unary operator argument => return unary operator (← f argument)
  | update operator leading argument => return update operator leading (← f argument)
  | binary operator left right => return binary operator (← f left) (← f right)
  | logical operator left right => return logical operator (← f left) (← f right)
  | assignment operator left right => return assignment operator (← f left) (← f right)
  | conditional test consequent alternate =>
    return conditional (← f test) (← f consequent) (← f alternate)
  | sequence expressions => return sequence (← expressions.mapM f)

def map (f : α → β) (n : Node α) : Node β :=
  Id.run (n.traverse fun child => pure (f child))

theorem run_mapM_option (f : α → β) (o : Option α) :
    (o.mapM fun child => (pure (f child) : Id β)).run = o.map f := by
  cases o <;> rfl

@[simp] theorem children_map (f : α → β) (n : Node α) :
    (n.map f).children = n.children.map f := by
  have ofOption (o : Option α) : (o.map f).toList = o.toList.map f := by cases o <;> rfl
  cases n <;> simp [map, traverse, children, run_mapM_option, ofOption]

/-- The fields a child can be taken out of: every list with the node as a function of it, and
every optional field with the node that lacks it. -/
def detachable : Node α → List (List α × (List α → Node α)) × List (Option α × Node α)
  | program body => ([(body, program)], [])
  | block body => ([(body, block)], [])
  | variableDeclaration kind declarations =>
    ([(declarations, variableDeclaration kind)], [])
  | variableDeclarator target init => ([], [(init, variableDeclarator target none)])
  | function f =>
    ([(f.params, fun params => function { f with params })],
      [(f.name, function { f with name := none })])
  | classDef c =>
    ([(c.members, fun members => classDef { c with members })],
      [(c.name, classDef { c with name := none }),
        (c.superClass, classDef { c with superClass := none })])
  | return_ argument => ([], [(argument, return_ none)])
  | if_ test consequent alternate => ([], [(alternate, if_ test consequent none)])
  | for_ init test step body =>
    ([], [(init, for_ none test step body), (test, for_ init none step body),
      (step, for_ init test none body)])
  | switch discriminant cases => ([(cases, switch discriminant)], [])
  | switchCase test consequent =>
    ([(consequent, switchCase test)], [(test, switchCase none consequent)])
  | arrayPattern elements => ([(elements, arrayPattern)], [])
  | array elements => ([(elements, array)], [])
  | object properties => ([(properties, object)], [])
  | call callee arguments => ([(arguments, call callee)], [])
  | new callee arguments => ([(arguments, new callee)], [])
  | sequence expressions => ([(expressions, sequence)], [])
  | _ => ([], [])

section Children

variable [DecidableEq α]

/-- How the node holds `child`; `none` if it is no child of the node. -/
def slotOf (n : Node α) (child : α) : Option Slot :=
  match n.detachable.1.findSome? (fun (items, _) => items.idxOf? child) with
  | some index => some (.list index)
  | none =>
    if n.detachable.2.any (fun (field, _) => field = some child) then some .optional
    else if child ∈ n.children then some .required
    else none

/-- Puts `new` where `old` stands first among the children; `none` if it stands nowhere. -/
def replaceChild? (n : Node α) (old new : α) : Option (Node α) :=
  let step (c : α) : StateM Bool α := fun replaced =>
    if !replaced && c = old then (new, true) else (c, replaced)
  match (n.traverse step).run false with
  | (replaced, true) => some replaced
  | (_, false) => none

/-- Takes `child` out of the list or optional field that holds it; `none` if no such field
does. -/
def detachChild? (n : Node α) (child : α) : Option (Node α) :=
  let fromList := n.detachable.1.findSome? fun (items, rebuild) =>
    if child ∈ items then some (rebuild (items.erase child)) else none
  fromList <|> n.detachable.2.findSome? fun (field, without) =>
    if field = some child then some without else none

end Children

def isStatement : Node α → Bool
  | expressionStatement .. | variableDeclaration .. | block .. | return_ .. | if_ .. | while_ ..
  | for_ .. | switch .. | break_ | continue_ | empty => true
  | function f => f.kind = .declaration
  | classDef c => c.isDeclaration
  | _ => false

def identifier? : Node α → Option String
  | identifier name => some name
  | _ => none

def isIdentifier (n : Node α) : Bool := n.identifier?.isSome

def isIdentifierNamed (n : Node α) (name : String) : Bool := n.identifier? = some name

def literal? : Node α → Option Literal
  | literal value => some value
  | _ => none

def function? : Node α → Option (Function α)
  | function f => some f
  | _ => none

def isFunction (n : Node α) : Bool := n.function?.isSome

/-- The value of a string literal. -/
def string? : Node α → Option String
  | literal (.string value _) => some value
  | _ => none

def statements? : Node α → Option (List α)
  | program body | block body | switchCase _ body => some body
  | _ => none

/-- Agreement of everything but the children: kinds, operators, names, values and flags, and
which optional fields are filled. -/
def agreesAtHead : Node α → Node β → Bool
  | literal x, literal y => x.agrees y
  | identifier x, identifier y => x = y
  | variableDeclaration x _, variableDeclaration y _ => x = y
  | function x, function y =>
    x.kind = y.kind && x.isGenerator = y.isGenerator && x.isAsync = y.isAsync
      && x.name.isSome = y.name.isSome
  | classDef x, classDef y =>
    x.isDeclaration = y.isDeclaration && x.name.isSome = y.name.isSome
      && x.superClass.isSome = y.superClass.isSome
  | classMethod k _ _ s, classMethod k' _ _ s' => k = k' && s = s'
  | property _ _ x, property _ _ y | member _ _ x, member _ _ y => x = y
  | unary x _, unary y _ => x = y
  | update x p _, update y p' _ => x = y && p = p'
  | binary x _ _, binary y _ _ => x = y
  | logical x _ _, logical y _ _ => x = y
  | assignment x _ _, assignment y _ _ => x = y
  | if_ _ _ x, if_ _ _ y => x.isSome = y.isSome
  | return_ x, return_ y => x.isSome = y.isSome
  | variableDeclarator _ x, variableDeclarator _ y => x.isSome = y.isSome
  | for_ i t u _, for_ i' t' u' _ =>
    i.isSome = i'.isSome && t.isSome = t'.isSome && u.isSome = u'.isSome
  | switchCase x _, switchCase y _ => x.isSome = y.isSome
  | x, y => x.kindName = y.kindName

end Node

end Unravel
