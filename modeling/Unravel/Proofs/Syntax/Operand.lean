import Unravel.Proofs.Scope.WellBound

/-!
What may stand where: statements, cases of switch statements and declarators have their places, and
everything else is an operand, which may stand anywhere (`Node.admits`). And which jumps from inside
a node catches.
-/

namespace Unravel

/-- The statements that leave a loop or a switch, or begin a loop anew. -/
inductive Jump where
  | break_ | continue_
deriving DecidableEq

namespace Node

variable {α β γ δ : Type}

def isProgram : Node α → Bool
  | program _ => true
  | _ => false

def isCase : Node α → Bool
  | switchCase .. => true
  | _ => false

def isSwitch : Node α → Bool
  | switch .. => true
  | _ => false

def isVariableDeclaration : Node α → Bool
  | variableDeclaration .. => true
  | _ => false

/-- Whether statements may be among the children of a node. -/
def holdsStatements : Node α → Bool
  | program _ | block _ | if_ .. | while_ .. | for_ .. | switchCase .. | function _ => true
  | _ => false

/-- Whether a node is no statement, case, declarator or program. -/
def isOperand (n : Node α) : Bool := !(n.isStatement || n.isCase || n.isDeclarator || n.isProgram)

/-- Whether a node may hold another one. -/
def admits (parent : Node α) (child : Node β) : Bool :=
  child.isOperand || (child.isStatement && parent.holdsStatements) ||
  (child.isCase && parent.isSwitch) ||
    (child.isDeclarator && parent.isVariableDeclaration)

/-- Whether all children of a node are operands. -/
def holdsOperands (n : Node α) :
    Bool := !(n.holdsStatements || n.isSwitch || n.isVariableDeclaration)

/-- The jump that a node is. -/
def jump? : Node α → Option Jump
  | break_ => some .break_
  | continue_ => some .continue_
  | _ => none

/-- Whether a jump inside a node goes to that node. -/
def catches : Node α → Jump → Bool
  | while_ .., _ | for_ .., _ | switch .., .break_ => true
  | _, _ => false

/-- Whether no jump inside a node may go beyond it. -/
def isBoundary (n : Node α) : Bool := n.isFunction || n.isProgram

variable {n parent : Node α} {m child : Node β}

/-! All of this depends on the tag of a node alone. -/

theorem isOperand_tag (n : Node α) : n.tag.isOperand = n.isOperand := by cases n <;> rfl

theorem isCase_tag (n : Node α) : n.tag.isCase = n.isCase := by cases n <;> rfl

theorem isBoundary_tag (n : Node α) : n.tag.isBoundary = n.isBoundary := by cases n <;> rfl

theorem jump?_tag (n : Node α) : n.tag.jump? = n.jump? := by cases n <;> rfl

theorem catches_tag (n : Node α) (j : Jump) :
    n.tag.catches j = n.catches j := by cases n <;> cases j <;> rfl

theorem holdsStatements_tag (n : Node α) :
    n.tag.holdsStatements = n.holdsStatements := by cases n <;> rfl

theorem isSwitch_tag (n : Node α) : n.tag.isSwitch = n.isSwitch := by cases n <;> rfl

theorem isVariableDeclaration_tag (n : Node α) :
    n.tag.isVariableDeclaration = n.isVariableDeclaration := by
  cases n <;> rfl

theorem admits_tag (parent : Node α) (child : Node β) :
    parent.tag.admits child.tag = parent.admits child := by
  simp only [admits, isOperand_tag, isStatement_tag, isCase_tag, isDeclarator_tag,
    holdsStatements_tag, isSwitch_tag, isVariableDeclaration_tag]

section Congruence

variable {n' : Node γ} {m' : Node δ} (same : n'.tag = n.tag)

include same

theorem isOperand_congr : n'.isOperand = n.isOperand := by rw [← isOperand_tag, same, isOperand_tag]

theorem isStatement_congr :
    n'.isStatement = n.isStatement := by rw [← isStatement_tag, same, isStatement_tag]

theorem isFunction_congr :
    n'.isFunction = n.isFunction := by rw [← isFunction_tag, same, isFunction_tag]

theorem isBoundary_congr :
    n'.isBoundary = n.isBoundary := by rw [← isBoundary_tag, same, isBoundary_tag]

theorem jump?_congr : n'.jump? = n.jump? := by rw [← jump?_tag, same, jump?_tag]

theorem catches_congr (j : Jump) :
    n'.catches j = n.catches j := by rw [← catches_tag, same, catches_tag]

theorem admits_congr (sameChild : m'.tag = m.tag) : n'.admits m' = n.admits m := by
  rw [← admits_tag, same, sameChild, admits_tag]

end Congruence

/-! What may stand where. -/

theorem isOperand_of_isPattern (isPattern : n.isPattern = true) : n.isOperand = true := by
  cases n <;> simp_all [Node.isPattern, isOperand, isStatement, isCase, isDeclarator, isProgram]

theorem admits_of_isOperand (parent : Node α) (isOperand : child.isOperand = true) :
    parent.admits child = true := by
  simp [admits, isOperand]

theorem admits_of_isStatement {other : Node γ} (admitted : parent.admits child = true)
    (isStatement : child.isStatement = true) (otherIsStatement : other.isStatement = true) :
    parent.admits other = true := by
  cases child <;> simp_all [admits, Node.isStatement, isOperand, isCase, isDeclarator]

theorem isOperand_of_admits (admitted : parent.admits child = true)
    (holds : parent.holdsOperands = true) :
    child.isOperand = true := by
  simp only [holdsOperands, Bool.not_eq_true', Bool.or_eq_false_iff] at holds
  simpa [admits, holds] using admitted

theorem isOperand_or_isStatement_of_admits (admitted : parent.admits child = true)
    (holds : parent.holdsStatements = true) :
    child.isOperand = true ∨ child.isStatement = true := by
  cases parent <;> simp_all [admits, holdsStatements, isSwitch, isVariableDeclaration]

theorem admits_of_holdsStatements (holds : parent.holdsStatements = true)
    (isPart : child.isOperand = true ∨ child.isStatement = true) : parent.admits child = true := by
  rcases isPart with isOperand | isStatement
  · simp [admits, isOperand]
  · simp [admits, isStatement, holds]

theorem isFunction_of_admits (admitted : parent.admits child = true)
    (isOperand : parent.isOperand = true) (notOperand : child.isOperand = false) :
    parent.isFunction = true := by
  cases parent <;> simp_all [admits, Node.isOperand, holdsStatements, isSwitch,
    isVariableDeclaration, isCase, isDeclarator, isProgram, Node.isStatement, isFunction, function?]

theorem not_isOperand_of_jump? {j : Jump} (isJump : n.jump? = some j) : n.isOperand = false := by
  cases n <;> simp_all [jump?, isOperand, isStatement]

theorem not_isStatement_of_isOperand (isOperand : n.isOperand = true) : n.isStatement = false := by
  simp only [Node.isOperand, Bool.not_eq_true', Bool.or_eq_false_iff] at isOperand
  exact isOperand.1.1.1

theorem not_isDeclarator_of_isOperand (isOperand : n.isOperand = true) :
    n.isDeclarator = false := by
  simp only [Node.isOperand, Bool.not_eq_true', Bool.or_eq_false_iff] at isOperand
  exact isOperand.1.2

end Node

end Unravel
