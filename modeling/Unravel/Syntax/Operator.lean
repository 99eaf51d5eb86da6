/-!
The operators of JavaScript expressions: their spellings, the spellings read back, and how
tightly each one binds.
-/

namespace Unravel

/-- Operators that evaluate both operands. -/
inductive BinaryOp where
  | add | sub | mul | div | rem | exp
  | eq | notEq | strictEq | strictNotEq
  | lt | ltEq | gt | gtEq
  | shl | shr | ushr
  | bitAnd | bitOr | bitXor
  | isIn | instanceOf
deriving DecidableEq, Inhabited

/-- Operators that may skip their right operand. -/
inductive LogicalOp where
  | and | or | nullish
deriving DecidableEq, Inhabited

/-- Operators written before their only operand. -/
inductive UnaryOp where
  | minus | plus | not | bitNot | typeOf | void | delete
deriving DecidableEq, Inhabited

inductive UpdateOp where
  | increment | decrement
deriving DecidableEq, Inhabited

/-- Plain assignment and the assignments that combine the old value with the new one. -/
inductive AssignOp where
  | assign | add | sub | mul | div | rem
  | shl | shr | ushr | bitAnd | bitOr | bitXor
deriving DecidableEq, Inhabited

namespace BinaryOp

def all : List BinaryOp :=
  [add, sub, mul, div, rem, exp, eq, notEq, strictEq, strictNotEq, lt, ltEq, gt, gtEq,
    shl, shr, ushr, bitAnd, bitOr, bitXor, isIn, instanceOf]

def spelling : BinaryOp → String
  | add => "+"
  | sub => "-"
  | mul => "*"
  | div => "/"
  | rem => "%"
  | exp => "**"
  | eq => "=="
  | notEq => "!="
  | strictEq => "==="
  | strictNotEq => "!=="
  | lt => "<"
  | ltEq => "<="
  | gt => ">"
  | gtEq => ">="
  | shl => "<<"
  | shr => ">>"
  | ushr => ">>>"
  | bitAnd => "&"
  | bitOr => "|"
  | bitXor => "^"
  | isIn => "in"
  | instanceOf => "instanceof"

/-- Binding power; an operator with a higher one takes its operands first. -/
def precedence : BinaryOp → Nat
  | bitOr => 6
  | bitXor => 7
  | bitAnd => 8
  | eq | notEq | strictEq | strictNotEq => 9
  | lt | ltEq | gt | gtEq | isIn | instanceOf => 10
  | shl | shr | ushr => 11
  | add | sub => 12
  | mul | div | rem => 13
  | exp => 14

/-- The operators whose operands may be exchanged when both are primitive values. -/
def isCommutative : BinaryOp → Bool
  | mul | eq | notEq | strictEq | strictNotEq | bitAnd | bitOr | bitXor => true
  | _ => false

def ofSpelling? (s : String) : Option BinaryOp :=
  all.find? (·.spelling = s)

theorem mem_all (op : BinaryOp) : op ∈ all := by
  cases op <;> decide

theorem ofSpelling?_spelling (op : BinaryOp) : ofSpelling? op.spelling = some op := by
  cases op <;> decide

end BinaryOp

namespace LogicalOp

def all : List LogicalOp := [and, or, nullish]

def spelling : LogicalOp → String
  | and => "&&"
  | or => "||"
  | nullish => "??"

/-- Binding power, on the scale of `BinaryOp.precedence`. -/
def precedence : LogicalOp → Nat
  | nullish => 3
  | or => 4
  | and => 5

def ofSpelling? (s : String) : Option LogicalOp :=
  all.find? (·.spelling = s)

theorem ofSpelling?_spelling (op : LogicalOp) : ofSpelling? op.spelling = some op := by
  cases op <;> decide

end LogicalOp

namespace UnaryOp

def all : List UnaryOp := [minus, plus, not, bitNot, typeOf, void, delete]

def spelling : UnaryOp → String
  | minus => "-"
  | plus => "+"
  | not => "!"
  | bitNot => "~"
  | typeOf => "typeof"
  | void => "void"
  | delete => "delete"

/-- Operators spelled as a word stand apart from their operand. -/
def isKeyword : UnaryOp → Bool
  | typeOf | void | delete => true
  | _ => false

def ofSpelling? (s : String) : Option UnaryOp :=
  all.find? (·.spelling = s)

theorem ofSpelling?_spelling (op : UnaryOp) : ofSpelling? op.spelling = some op := by
  cases op <;> decide

end UnaryOp

namespace UpdateOp

def all : List UpdateOp := [increment, decrement]

def spelling : UpdateOp → String
  | increment => "++"
  | decrement => "--"

def ofSpelling? (s : String) : Option UpdateOp :=
  all.find? (·.spelling = s)

theorem ofSpelling?_spelling (op : UpdateOp) : ofSpelling? op.spelling = some op := by
  cases op <;> decide

end UpdateOp

namespace AssignOp

def all : List AssignOp :=
  [assign, add, sub, mul, div, rem, shl, shr, ushr, bitAnd, bitOr, bitXor]

def spelling : AssignOp → String
  | assign => "="
  | add => "+="
  | sub => "-="
  | mul => "*="
  | div => "/="
  | rem => "%="
  | shl => "<<="
  | shr => ">>="
  | ushr => ">>>="
  | bitAnd => "&="
  | bitOr => "|="
  | bitXor => "^="

def ofSpelling? (s : String) : Option AssignOp :=
  all.find? (·.spelling = s)

theorem ofSpelling?_spelling (op : AssignOp) : ofSpelling? op.spelling = some op := by
  cases op <;> decide

end AssignOp

end Unravel
