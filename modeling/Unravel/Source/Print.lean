import Unravel.Numeral.Decimal
import Unravel.Source.Quoted
import Unravel.Tree.Basic

/-!
JavaScript source text of a term: two spaces of indentation, one statement per line, and
parentheses only where the text would otherwise read back as another tree.

`Term.text` is the text of one node. What stands around it depends on the place: an operand is
put in parentheses if it binds less tightly than its place demands (`operand`), and an
expression in the place of a statement takes a semicolon (`clause`).
-/

namespace Unravel.Term

/-- The binding powers that are not those of an operator, on the scale of
`BinaryOp.precedence`. -/
def sequencePrecedence : Nat := 0
def assignmentPrecedence : Nat := 1
def conditionalPrecedence : Nat := 2
def unaryPrecedence : Nat := 15
def postfixPrecedence : Nat := 16
def callPrecedence : Nat := 17
def primaryPrecedence : Nat := 18

def precedence (t : Term) : Nat :=
  match t.node with
  | .sequence _ => sequencePrecedence
  | .assignment .. => assignmentPrecedence
  | .conditional .. => conditionalPrecedence
  | .logical operator .. => operator.precedence
  | .binary operator .. => operator.precedence
  | .unary .. => unaryPrecedence
  | .update _ leading _ => if leading then unaryPrecedence else postfixPrecedence
  | .literal (.number x) => if Double.isNegative x then unaryPrecedence else primaryPrecedence
  | .call .. | .new .. | .member .. => callPrecedence
  | _ => primaryPrecedence

def parenthesize (wrap : Bool) (text : String) : String :=
  if wrap then "(" ++ text ++ ")" else text

def indentation (depth : Nat) : String := String.ofList (List.replicate (2 * depth) ' ')

def commaSeparated (texts : List String) : String := ", ".intercalate texts

/-- Whether a statement that starts with this term would read as a declaration or a block. -/
def startsAmbiguously : Term → Bool
  | .mk node =>
    match node with
    | .function _ | .classDef _ | .object _ => true
    | .call callee _ =>
      match callee with
      | .mk (.function _) => false
      | callee => callee.startsAmbiguously
    | .member base .. => base.startsAmbiguously
    | .binary _ left _ | .logical _ left _ | .assignment _ left _ => left.startsAmbiguously
    | .conditional test .. => test.startsAmbiguously
    | .sequence (first :: _) => first.startsAmbiguously
    | .update _ false argument => argument.startsAmbiguously
    | _ => false

/-- Whether the term is a name or `this` with property accesses on it, as may follow `new`
without parentheses. -/
def isMemberChain : Term → Bool
  | .mk (.identifier _) | .mk .this_ => true
  | .mk (.member base ..) => base.isMemberChain
  | _ => false

/-- Whether `??` meets `&&` or `||`, which may not stand side by side. -/
def mixesNullish (operator : LogicalOp) (operand : Term) : Bool :=
  match operand.node with
  | .logical inner .. => (operator = .nullish) != (inner = .nullish)
  | _ => false

/-- Whether the operand begins with a sign that would run together with the operator. -/
def needsSpace (operator : UnaryOp) (argument : Term) : Bool :=
  operator.isKeyword ||
    match operator, argument.node with
    | .minus, .unary .minus _ | .plus, .unary .plus _
    | .minus, .update .decrement true _ | .plus, .update .increment true _ => true
    | .minus, .literal (.number x) => Double.isNegative x
    | _, _ => false

/-- Whether the digits of the term would take a following point for a decimal point. -/
def isBareInteger (t : Term) : Bool :=
  match t.node with
  | .literal (.number x) => Double.isIntegral x && !Double.isNegative x
  | _ => false

/-- Functions and classes are set apart from what is done with their value. -/
def isDefinition (t : Term) : Bool :=
  match t.node with
  | .function _ | .classDef _ => true
  | _ => false

def isDeclarator (t : Term) : Bool :=
  match t.node with
  | .variableDeclarator .. => true
  | _ => false

def isSwitchCase (t : Term) : Bool :=
  match t.node with
  | .switchCase .. => true
  | _ => false

def isClassMethod (t : Term) : Bool :=
  match t.node with
  | .classMethod .. => true
  | _ => false

def literalText : Literal → String
  | .string _ (some raw) => raw
  | .string value none => Source.quote value
  | .number x => Decimal.text x
  | .boolean true => "true"
  | .boolean false => "false"
  | .null => "null"

def operand (t : Term) (least : Nat) (text : String) : String :=
  parenthesize (t.precedence < least) text

def clause (t : Term) (text : String) : String :=
  if t.node.isStatement || t.isDefinition then text else text ++ ";"

mutual

def text (depth : Nat) : Term → String
  | .mk (.program body) => statementLines depth body
  | .mk (.expressionStatement expression) =>
    parenthesize expression.startsAmbiguously (text depth expression) ++ ";"
  | .mk (.variableDeclaration kind declarations) =>
    kind.spelling ++ " " ++ commaSeparated (declaratorTexts depth declarations) ++ ";"
  | .mk (.variableDeclarator target init) =>
    target.operand assignmentPrecedence (text depth target)
      ++ optionalText depth " = " assignmentPrecedence init
  | .mk (.function ⟨_, name, params, body, isGenerator, isAsync⟩) =>
    (if isAsync then "async " else "") ++ "function" ++ (if isGenerator then "*" else "")
      ++ optionalText depth " " primaryPrecedence name
      ++ "(" ++ commaSeparated (operandTexts depth params) ++ ") " ++ body.clause (text depth body)
  | .mk (.classDef ⟨name, superClass, members, _⟩) =>
    "class" ++ optionalText depth " " primaryPrecedence name
      ++ optionalText depth " extends " callPrecedence superClass
      ++ (if members.isEmpty then " \x7b\x7d"
        else " \x7b\n" ++ memberLines (depth + 1) members ++ indentation depth ++ "\x7d")
  | .mk (.classMethod kind key value isStatic) =>
    (if isStatic then "static " else "")
      ++ (match kind with
        | .constructor => "constructor"
        | .method => key.operand primaryPrecedence (text depth key))
      ++ (match value with
        | .mk (.function f) =>
          "(" ++ commaSeparated (operandTexts depth f.params) ++ ") "
            ++ f.body.clause (text depth f.body)
        | _ => "")
  | .mk (.block body) =>
    if body.isEmpty then "\x7b\x7d"
    else "\x7b\n" ++ statementLines (depth + 1) body ++ indentation depth ++ "\x7d"
  | .mk (.return_ argument) =>
    "return" ++ optionalText depth " " sequencePrecedence argument ++ ";"
  | .mk (.if_ test consequent alternate) =>
    "if (" ++ text depth test ++ ") " ++ consequent.clause (text depth consequent)
      ++ (match alternate with
        | some alternate => " else " ++ alternate.clause (text depth alternate)
        | none => "")
  | .mk (.while_ test body) =>
    "while (" ++ text depth test ++ ") " ++ body.clause (text depth body)
  | .mk (.for_ init test step body) =>
    "for ("
      ++ (match init with
        | some (.mk (.variableDeclaration kind declarations)) =>
          kind.spelling ++ " " ++ commaSeparated (declaratorTexts depth declarations)
        | some init => text depth init
        | none => "")
      ++ ";"
      ++ optionalText depth " " sequencePrecedence test ++ ";"
      ++ optionalText depth " " sequencePrecedence step ++ ") " ++ body.clause (text depth body)
  | .mk (.switch discriminant cases) =>
    "switch (" ++ text depth discriminant ++ ") \x7b\n" ++ caseLines (depth + 1) cases
      ++ indentation depth ++ "\x7d"
  | .mk (.switchCase test consequent) =>
    (match test with
      | some test => "case " ++ text depth test ++ ":\n"
      | none => "default:\n")
      ++ statementLines (depth + 1) consequent
  | .mk .break_ => "break;"
  | .mk .continue_ => "continue;"
  | .mk .empty => ";"
  | .mk (.assignmentPattern left right) =>
    left.operand callPrecedence (text depth left) ++ " = "
      ++ right.operand assignmentPrecedence (text depth right)
  | .mk (.restElement argument) => "..." ++ argument.operand callPrecedence (text depth argument)
  | .mk (.identifier name) => name
  | .mk (.literal value) => literalText value
  | .mk .this_ => "this"
  | .mk (.array elements) | .mk (.arrayPattern elements) =>
    "[" ++ commaSeparated (operandTexts depth elements) ++ "]"
  | .mk (.object properties) =>
    if properties.isEmpty then "\x7b\x7d"
    else "\x7b " ++ commaSeparated (plainTexts depth properties) ++ " \x7d"
  | .mk (.property key value computed) =>
    (if computed then "[" ++ key.operand assignmentPrecedence (text depth key) ++ "]"
      else text depth key)
      ++ ": " ++ value.operand assignmentPrecedence (text depth value)
  | .mk (.call callee arguments) =>
    parenthesize (callee.isDefinition || callee.precedence < callPrecedence) (text depth callee)
      ++ "(" ++ commaSeparated (operandTexts depth arguments) ++ ")"
  | .mk (.new callee arguments) =>
    "new " ++ parenthesize (!callee.isMemberChain) (text depth callee)
      ++ "(" ++ commaSeparated (operandTexts depth arguments) ++ ")"
  | .mk (.member base key computed) =>
    parenthesize ((base.isBareInteger && !computed) || base.isDefinition
        || base.precedence < callPrecedence) (text depth base)
      ++ (if computed then "[" ++ text depth key ++ "]" else "." ++ text depth key)
  | .mk (.unary operator argument) =>
    operator.spelling ++ (if needsSpace operator argument then " " else "")
      ++ argument.operand unaryPrecedence (text depth argument)
  | .mk (.update operator true argument) =>
    operator.spelling ++ argument.operand unaryPrecedence (text depth argument)
  | .mk (.update operator false argument) =>
    argument.operand postfixPrecedence (text depth argument) ++ operator.spelling
  | .mk (.binary operator left right) =>
    let p := operator.precedence
    let towardRight := operator = .exp
    left.operand (if towardRight then p + 1 else p) (text depth left)
      ++ " " ++ operator.spelling ++ " "
      ++ right.operand (if towardRight then p else p + 1) (text depth right)
  | .mk (.logical operator left right) =>
    let p := operator.precedence
    parenthesize (mixesNullish operator left || left.precedence < p) (text depth left)
      ++ " " ++ operator.spelling ++ " "
      ++ parenthesize (mixesNullish operator right || right.precedence < p + 1) (text depth right)
  | .mk (.assignment operator left right) =>
    left.operand callPrecedence (text depth left) ++ " " ++ operator.spelling ++ " "
      ++ right.operand assignmentPrecedence (text depth right)
  | .mk (.conditional test consequent alternate) =>
    test.operand (conditionalPrecedence + 1) (text depth test)
      ++ " ? " ++ consequent.operand assignmentPrecedence (text depth consequent)
      ++ " : " ++ alternate.operand assignmentPrecedence (text depth alternate)
  | .mk (.sequence expressions) => commaSeparated (operandTexts depth expressions)

def statementLines (depth : Nat) : List Term → String
  | [] => ""
  | t :: ts =>
    indentation depth ++ t.clause (text depth t) ++ "\n" ++ statementLines depth ts

def caseLines (depth : Nat) : List Term → String
  | [] => ""
  | t :: ts =>
    (if t.isSwitchCase then indentation depth ++ text depth t else "") ++ caseLines depth ts

def memberLines (depth : Nat) : List Term → String
  | [] => ""
  | t :: ts =>
    (if t.isClassMethod then indentation depth ++ text depth t ++ "\n" else "")
      ++ memberLines depth ts

/-- The elements of a list, where a sequence would need parentheses. -/
def operandTexts (depth : Nat) : List Term → List String
  | [] => []
  | t :: ts => t.operand assignmentPrecedence (text depth t) :: operandTexts depth ts

def plainTexts (depth : Nat) : List Term → List String
  | [] => []
  | t :: ts => text depth t :: plainTexts depth ts

def declaratorTexts (depth : Nat) : List Term → List String
  | [] => []
  | t :: ts => (if t.isDeclarator then text depth t else "") :: declaratorTexts depth ts

/-- An optional part and what introduces it. -/
def optionalText (depth : Nat) (lead : String) (least : Nat) : Option Term → String
  | none => ""
  | some t => lead ++ t.operand least (text depth t)

end

/-- The source text of a term. Statements end with a line break, and expressions take one line
unless they hold a function or class. -/
def source (t : Term) : String :=
  match t.node with
  | .program _ => t.text 0
  | node => if node.isStatement then t.text 0 ++ "\n" else t.text 0

end Unravel.Term

namespace Unravel.Tree

/-- The source text of the tree below a handle. -/
def source (t : Tree) (id : NodeId) : String := (t.term id).source

end Unravel.Tree
