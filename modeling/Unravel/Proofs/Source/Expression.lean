import Unravel.Proofs.Source.Reader

/-!
The expressions that stand for themselves in source text (`Source.IsExpression`), and their text as
a list of characters (`Term.chars`) by the texts of their parts.

How the text of an expression meets what stands around it.

* `Term.power` is the highest binding power at which the text is read as one operand, and
  `Term.limit` the one that a following operator must stay below to be left out of it.
* `Source.Stops` says that a text does not continue the operand before it.
* `Source.Begins` says what stands at the front of an expression: a sign only where the
  expression is one itself, so that it does not run together with an operator before it.
-/

namespace Unravel

open Source

namespace Term

/-- Whether a term can be written to. -/
def isTarget (t : Term) : Bool :=
  match t.node with
  | .identifier _ | .member .. => true
  | _ => false

/-- Whether a term can be the key of a property as it is. -/
def isKey (t : Term) : Bool :=
  match t.node with
  | .identifier _ | .literal (.string ..) | .literal (.number _) => true
  | _ => false

def chars (t : Term) : List Char := (t.text 0).toList

/-- The text of a term, perhaps in parentheses. -/
def placed (wrap : Bool) (t : Term) :
    List Char := if wrap then '(' :: (t.chars ++ [')']) else t.chars

def listChars (texts : List (List Char)) : List Char := [',', ' '].intercalate texts

def itemChars (ts : List Term) : List Char :=
  listChars (ts.map fun t => t.placed (t.precedence < assignmentPrecedence))

end Term

namespace Source

/-- A property of an object. -/
structure Entry where
  key : Term
  value : Term
  computed : Bool

def Entry.term (e : Entry) : Term := .mk (.property e.key e.value e.computed)

/-- An expression of names, literals, objects and operators, with numbers out of a list. -/
inductive IsExpression (numbers : List Float) : Term → Prop where
  | identifier {name : String} (valid : isIdentifierName name = true) :
    IsExpression numbers (.mk (.identifier name))
  | this_ : IsExpression numbers (.mk .this_)
  | string (value : String) : IsExpression numbers (.mk (.literal (.string value none)))
  | number {x : Float} (known : x ∈ numbers) : IsExpression numbers (.mk (.literal (.number x)))
  | boolean (b : Bool) : IsExpression numbers (.mk (.literal (.boolean b)))
  | null : IsExpression numbers (.mk (.literal .null))
  | array {elements : List Term} (each : ∀ t ∈ elements, IsExpression numbers t) :
    IsExpression numbers (.mk (.array elements))
  | object {entries : List Entry} (keys : ∀ e ∈ entries, IsExpression numbers e.key)
      (plain : ∀ e ∈ entries, e.computed = false → e.key.isKey = true)
      (values : ∀ e ∈ entries, IsExpression numbers e.value) :
    IsExpression numbers (.mk (.object (entries.map Entry.term)))
  | property {base : Term} {name : String} (onBase : IsExpression numbers base)
      (valid : isIdentifierName name = true) :
    IsExpression numbers (.mk (.member base (.mk (.identifier name)) false))
  | element {base key : Term} (onBase : IsExpression numbers base)
      (onKey : IsExpression numbers key) :
    IsExpression numbers (.mk (.member base key true))
  | call {callee : Term} {arguments : List Term} (onCallee : IsExpression numbers callee)
      (each : ∀ t ∈ arguments, IsExpression numbers t) :
      IsExpression numbers (.mk (.call callee arguments))
  | new {callee : Term} {arguments : List Term} (onCallee : IsExpression numbers callee)
      (each : ∀ t ∈ arguments, IsExpression numbers t) :
      IsExpression numbers (.mk (.new callee arguments))
  | unary (operator : UnaryOp) {argument : Term} (onArgument : IsExpression numbers argument) :
    IsExpression numbers (.mk (.unary operator argument))
  | update (operator : UpdateOp) (leading : Bool) {argument : Term}
      (onArgument : IsExpression numbers argument)
      (target : argument.isTarget = true) :
      IsExpression numbers (.mk (.update operator leading argument))
  | binary (operator : BinaryOp) {left right : Term} (onLeft : IsExpression numbers left)
      (onRight : IsExpression numbers right) :
      IsExpression numbers (.mk (.binary operator left right))
  | logical (operator : LogicalOp) {left right : Term} (onLeft : IsExpression numbers left)
      (onRight : IsExpression numbers right) :
      IsExpression numbers (.mk (.logical operator left right))
  | assignment (operator : AssignOp) {left right : Term} (onLeft : IsExpression numbers left)
      (target : left.isTarget = true) (onRight : IsExpression numbers right) :
    IsExpression numbers (.mk (.assignment operator left right))
  | conditional {test consequent alternate : Term} (onTest : IsExpression numbers test)
      (onConsequent : IsExpression numbers consequent)
      (onAlternate : IsExpression numbers alternate) :
    IsExpression numbers (.mk (.conditional test consequent alternate))
  | sequence {terms : List Term} (several : 2 ≤ terms.length)
      (each : ∀ t ∈ terms, IsExpression numbers t) :
    IsExpression numbers (.mk (.sequence terms))

end Source

namespace Term

attribute [local simp] text operandTexts plainTexts

theorem toList_parenthesize (wrap : Bool) (t : Term) :
    (parenthesize wrap (t.text 0)).toList = t.placed wrap := by
  cases wrap
  · rfl
  · simp [parenthesize, placed, chars]

theorem toList_operand (t : Term) (least : Nat) :
    (t.operand least (t.text 0)).toList = t.placed (t.precedence < least) :=
  toList_parenthesize ..

theorem toList_operandTexts (ts : List Term) :
    (commaSeparated (operandTexts 0 ts)).toList = itemChars ts := by
  have each : (operandTexts 0 ts).map String.toList =
      ts.map fun t => t.placed (t.precedence < assignmentPrecedence) := by
    induction ts with
    | nil => simp
    | cons t ts induction => simp [toList_operand, induction]
  rw [commaSeparated, String.toList_intercalate, each]
  rfl

theorem toList_plainTexts (ts : List Term) :
    (commaSeparated (plainTexts 0 ts)).toList = listChars (ts.map chars) := by
  have each : (plainTexts 0 ts).map String.toList = ts.map chars := by
    induction ts with
    | nil => simp
    | cons t ts induction => simp [chars, induction]
  rw [commaSeparated, String.toList_intercalate, each]
  rfl

variable {name : String} {x : Float} {t base key value callee argument left right test : Term}
  {ts : List Term}

theorem chars_identifier : (mk (.identifier name)).chars = name.toList := by
  rw [chars, text]

theorem chars_literal (l : Literal) : (mk (.literal l)).chars = (literalText l).toList := by
  rw [chars, text]

theorem chars_this : (mk .this_).chars = "this".toList := by
  rw [chars, text]

theorem chars_array : (mk (.array ts)).chars = '[' :: (itemChars ts ++ [']']) := by
  rw [chars]
  simp [toList_operandTexts]

theorem chars_object : (mk (.object ts)).chars =
    if ts.isEmpty then ['{', '}'] else '{' :: ' ' :: (listChars (ts.map chars) ++ [' ', '}']) := by
  rw [chars, text]
  split <;> simp [toList_plainTexts]

theorem chars_property {computed : Bool} : (mk (.property key value computed)).chars =
    (if computed then '[' :: (key.placed (key.precedence < assignmentPrecedence) ++ [']'])
      else key.chars) ++ ':' :: ' ' :: value.placed (value.precedence < assignmentPrecedence) := by
  rw [chars, text]
  cases computed <;> simp [toList_operand, chars]

theorem chars_call : (mk (.call callee ts)).chars =
    callee.placed (callee.isDefinition || callee.precedence < callPrecedence) ++
      '(' :: (itemChars ts ++ [')']) := by
  rw [chars]
  simp [toList_parenthesize, toList_operandTexts]

theorem chars_new : (mk (.new callee ts)).chars =
    "new".toList ++
    ' ' :: (callee.placed (!callee.isMemberChain) ++ '(' :: (itemChars ts ++ [')'])) := by
  rw [chars]
  simp [toList_parenthesize, toList_operandTexts]

theorem chars_member {computed : Bool} : (mk (.member base key computed)).chars =
    base.placed
      ((base.isBareInteger && !computed) || base.isDefinition ||
        base.precedence < callPrecedence) ++
      (if computed then '[' :: (key.chars ++ [']']) else '.' :: key.chars) := by
  rw [chars, text]
  cases computed <;> simp [toList_parenthesize, chars]

theorem chars_unary {operator : UnaryOp} : (mk (.unary operator argument)).chars =
    operator.spelling.toList ++ (if needsSpace operator argument then [' '] else []) ++
      argument.placed (argument.precedence < unaryPrecedence) := by
  rw [chars, text]
  split <;> simp [toList_operand]

theorem chars_update {operator : UpdateOp} {leading : Bool} :
    (mk (.update operator leading argument)).chars =
      if leading then
        operator.spelling.toList ++ argument.placed (argument.precedence < unaryPrecedence)
      else argument.placed (argument.precedence < postfixPrecedence) ++
        operator.spelling.toList := by
  rw [chars]
  cases leading <;> rw [text] <;> simp [toList_operand]

theorem chars_binary {operator : BinaryOp} : (mk (.binary operator left right)).chars =
    left.placed
      (left.precedence < if operator = .exp then operator.precedence + 1
        else operator.precedence) ++
      ' ' :: (operator.spelling.toList ++ ' ' :: right.placed
        (right.precedence < (Infix.binary operator).lastPrecedence)) := by
  rw [chars]
  simp [toList_operand]
  rfl

theorem chars_logical {operator : LogicalOp} : (mk (.logical operator left right)).chars =
    left.placed (mixesNullish operator left || left.precedence < operator.precedence) ++
      ' ' :: (operator.spelling.toList ++ ' ' :: right.placed
        (mixesNullish operator right || right.precedence < operator.precedence + 1)) := by
  rw [chars]
  simp [toList_parenthesize]

theorem chars_assignment {operator : AssignOp} : (mk (.assignment operator left right)).chars =
    left.placed (left.precedence < callPrecedence) ++
      ' ' :: (operator.spelling.toList ++
        ' ' :: right.placed (right.precedence < assignmentPrecedence)) := by
  rw [chars]
  simp [toList_operand]

theorem chars_conditional : (mk (.conditional test left right)).chars =
    test.placed (test.precedence < conditionalPrecedence + 1) ++
      ' ' :: '?' :: ' ' :: (left.placed (left.precedence < assignmentPrecedence) ++
        ' ' :: ':' :: ' ' :: right.placed (right.precedence < assignmentPrecedence)) := by
  rw [chars]
  simp [toList_operand]

theorem chars_sequence : (mk (.sequence ts)).chars = itemChars ts := by
  rw [chars, text, toList_operandTexts]

end Term

/-! ### How expressions meet what stands around them -/

namespace Term

/-- How tightly the text of a term holds together. Unlike a call, a chain of properties stays whole
after `new`. -/
def power (t : Term) : Nat := if t.isMemberChain then primaryPrecedence else t.precedence

/-- What binds less tightly does not become a part of the last operand. -/
def limit (t : Term) : Nat :=
  match t.node with
  | .assignment .. | .conditional .. => assignmentPrecedence
  | .logical operator .. => (Infix.logical operator).lastPrecedence
  | .binary operator .. => (Infix.binary operator).lastPrecedence
  | .unary .. | .update _ true _ => unaryPrecedence
  | _ => primaryPrecedence + 1

theorem le_precedence_of_isMemberChain {t : Term} (chain : t.isMemberChain = true) :
    callPrecedence ≤ t.precedence := by
  unfold isMemberChain at chain
  split at chain
  · exact Nat.le_succ 17
  · exact Nat.le_succ 17
  · exact Nat.le_refl 17
  · cases chain

theorem precedence_le (t : Term) : t.precedence ≤ primaryPrecedence := by
  unfold precedence
  split
  case h_4 operator _ _ _ => cases operator <;> decide
  case h_5 operator _ _ _ => cases operator <;> decide
  all_goals (try split) <;> decide

theorem power_le (t : Term) : t.power ≤ primaryPrecedence := by
  unfold power
  split
  · exact Nat.le_refl _
  · exact precedence_le t

theorem precedence_le_power (t : Term) : t.precedence ≤ t.power := by
  unfold power
  split
  · exact precedence_le t
  · exact Nat.le_refl _

theorem le_limit {t : Term} {k : Nat} (tight : k ≤ t.precedence)
    (different : k ≠ conditionalPrecedence) :
    k ≤ t.limit := by
  obtain ⟨node⟩ := t
  cases node
  case conditional => exact Nat.le_of_lt_succ (Nat.lt_of_le_of_ne tight different)
  case logical operator _ _ => exact Nat.le_succ_of_le tight
  case binary operator _ _ =>
    change k ≤ if operator = .exp then operator.precedence else operator.precedence + 1
    split
    · exact tight
    · exact Nat.le_succ_of_le tight
  case update operator leading _ =>
    cases leading
    · exact Nat.le_trans tight (show 16 ≤ 19 by decide)
    · exact tight
  case assignment => exact tight
  case unary => exact tight
  all_goals exact Nat.le_succ_of_le (tight.trans (precedence_le _))

def sign? (t : Term) : Option Char :=
  match t.node with
  | .unary .minus _ | .update .decrement true _ => some '-'
  | .unary .plus _ | .update .increment true _ => some '+'
  | _ => none

theorem precedence_of_sign? {t : Term} {c : Char} (signed : t.sign? = some c) :
    t.precedence = unaryPrecedence := by
  unfold sign? at signed
  split at signed
  case h_5 => cases signed
  all_goals
    rename_i same
    rw [precedence, same]
    try rfl

theorem needsSpace_minus {t : Term} (signed : t.sign? = some '-') : needsSpace .minus t = true := by
  unfold sign? at signed
  split at signed
  case h_3 => exact absurd (Option.some.inj signed) (by decide)
  case h_4 => exact absurd (Option.some.inj signed) (by decide)
  case h_5 => cases signed
  all_goals
    rename_i same
    unfold needsSpace
    rw [same]
    rfl

theorem needsSpace_plus {t : Term} (signed : t.sign? = some '+') : needsSpace .plus t = true := by
  unfold sign? at signed
  split at signed
  case h_1 => exact absurd (Option.some.inj signed) (by decide)
  case h_2 => exact absurd (Option.some.inj signed) (by decide)
  case h_5 => cases signed
  all_goals
    rename_i same
    unfold needsSpace
    rw [same]
    rfl

theorem lt_limit {t : Term} {k : Nat} (tight : k ≤ t.precedence) (low : conditionalPrecedence < k)
    (high : k < BinaryOp.exp.precedence) : k < t.limit := by
  obtain ⟨node⟩ := t
  cases node
  case conditional => exact absurd tight (Nat.not_le_of_lt low)
  case assignment => exact absurd tight (Nat.not_le_of_lt (Nat.lt_trans (show 1 < 2 by decide) low))
  case logical operator _ _ => exact Nat.lt_succ_of_le tight
  case binary operator _ _ =>
    change k < if operator = .exp then operator.precedence else operator.precedence + 1
    split
    · rename_i isExp
      exact isExp ▸ high
    · exact Nat.lt_succ_of_le tight
  case update operator leading _ =>
    cases leading
    · exact Nat.lt_trans high (show 14 < 19 by decide)
    · exact Nat.lt_trans high (show 14 < 15 by decide)
  case unary => exact Nat.lt_trans high (show 14 < 15 by decide)
  all_goals exact Nat.lt_trans high (show 14 < 19 by decide)

theorem limit_of_tight {t : Term} (tight : postfixPrecedence ≤ t.precedence) :
    t.limit = primaryPrecedence + 1 := by
  obtain ⟨node⟩ := t
  cases node
  case conditional => exact absurd tight (show ¬16 ≤ 2 by decide)
  case assignment => exact absurd tight (show ¬16 ≤ 1 by decide)
  case logical operator _ _ =>
    have low : operator.precedence < 16 := by cases operator <;> decide
    exact absurd tight (Nat.not_le_of_lt low)
  case binary operator _ _ =>
    have low : operator.precedence < 16 := by cases operator <;> decide
    exact absurd tight (Nat.not_le_of_lt low)
  case unary => exact absurd tight (show ¬16 ≤ 15 by decide)
  case update operator leading _ =>
    cases leading
    · rfl
    · exact absurd tight (show ¬16 ≤ 15 by decide)
  all_goals rfl
theorem tight_of_isTarget {t : Term} (target : t.isTarget = true) :
    callPrecedence ≤ t.precedence := by
  unfold isTarget at target
  split at target
  · rename_i same
    rw [precedence, same]
    exact Nat.le_succ 17
  · rename_i same
    rw [precedence, same]
  · cases target

theorem power_member_le {base key : Term} {computed : Bool}
    (tight : callPrecedence ≤ base.precedence) :
    (mk (.member base key computed)).power ≤ base.power := by
  change (if base.isMemberChain then 18 else 17) ≤ base.power
  split
  · rename_i chain
    rw [power, if_pos chain]
    exact Nat.le_refl 18
  · exact tight.trans base.precedence_le_power

end Term

namespace Source

variable {numbers : List Float} {e left right : Term} {cs rest more : List Char}
  {answer : Term × List Char} {least k : Nat} {c : Char} {i : Infix} {s : String} {wrap : Bool}

/-! ### What does not continue an operand -/

def Stops (least : Nat) (rest : List Char) : Prop :=
  ends rest = true ∧ ∀ power, continuation? rest = some power → power < least

theorem Stops.mono (stops : Stops k rest) (le : k ≤ least) : Stops least rest :=
  ⟨stops.1, fun power continues => Nat.lt_of_lt_of_le (stops.2 power continues) le⟩

theorem Stops.reads (stops : Stops least rest) : Reads numbers (.rest least e) rest (e, rest) := by
  apply reads_rest_of_stop
  rw [Option.all_eq_true]
  exact fun power continues => decide_eq_true (stops.2 power continues)

theorem Infix.precedence_lt (i : Infix) : i.precedence < Term.unaryPrecedence := by
  cases i with
  | binary operator => cases operator <;> decide
  | logical operator => cases operator <;> decide
  | assignment operator => exact show 1 < 15 by decide
  | choice => decide

theorem Infix.precedence_pos (i : Infix) : 1 ≤ i.precedence := by
  cases i with
  | binary operator => cases operator <;> decide
  | logical operator => cases operator <;> decide
  | assignment operator => exact Nat.le_refl 1
  | choice => decide

theorem stops_of_ends (isEnd : ends rest = true) : Stops (Term.primaryPrecedence + 1) rest := by
  refine ⟨isEnd, fun power continues => ?_⟩
  unfold continuation? at continues
  split at continues
  case h_6 =>
    obtain ⟨i, -, rfl⟩ := Option.map_eq_some_iff.mp continues
    exact Nat.lt_trans i.precedence_lt (by decide)
  case h_7 => cases continues
  all_goals
    obtain rfl := Option.some.inj continues
    decide

theorem Infix.spelling_eq_of_ofSpelling? (found : Infix.ofSpelling? s = some i) :
    i.spelling = s := by
  simp only [Infix.ofSpelling?, Option.orElse_eq_orElse, Option.orElse_eq_or, Option.or_eq_some_iff,
    Option.map_eq_some_iff, Option.ite_none_right_eq_some] at found
  obtain (⟨operator, found, rfl⟩ | ⟨-, operator, found, rfl⟩) |
    ⟨-, ⟨operator, found, rfl⟩ | ⟨-, rfl, ⟨⟩⟩⟩ :=
      found
  · exact of_decide_eq_true (List.find?_some found :)
  · exact of_decide_eq_true (List.find?_some found :)
  · exact of_decide_eq_true (List.find?_some found :)
  · rfl

theorem Infix.head_spelling (i : Infix) : i.spelling.toList.head? ≠ some '}' := by
  cases i with
  | binary operator => cases operator <;> decide
  | logical operator => cases operator <;> decide
  | assignment operator => cases operator <;> decide
  | choice => decide

theorem takeWhile_spelling (i : Infix) (more : List Char) :
    (i.spelling.toList ++ ' ' :: more).takeWhile (· ≠ ' ') = i.spelling.toList ∧
      (i.spelling.toList ++ ' ' :: more).dropWhile (· ≠ ' ') = ' ' :: more := by
  have all : ∀ c ∈ i.spelling.toList, decide (c ≠ ' ') = true := fun c isPart =>
    decide_eq_true fun same => i.notMem_spelling (same ▸ isPart)
  rw [List.takeWhile_append_of_pos all, List.dropWhile_append_of_pos all]
  simp

theorem continuation?_operator (i : Infix) (more : List Char) :
    continuation? (' ' :: (i.spelling.toList ++ ' ' :: more)) = some i.precedence := by
  rw [continuation?, (takeWhile_spelling i more).1, String.ofList_toList,
    Infix.ofSpelling?_spelling]
  rfl

theorem stops_operator (lt : i.precedence < k) :
    Stops k (' ' :: (i.spelling.toList ++ ' ' :: more)) := by
  refine ⟨rfl, fun power continues => ?_⟩
  rw [continuation?_operator] at continues
  exact Option.some.inj continues ▸ lt

theorem stops_nil : Stops k [] := ⟨rfl, fun _ continues => nomatch continues⟩

theorem stops_closing (closing : c = ')' ∨ c = ']' ∨ c = ',') : Stops k (c :: rest) := by
  obtain rfl | rfl | rfl := closing <;> exact ⟨rfl, fun _ continues => nomatch continues⟩

theorem stops_brace : Stops k (' ' :: '}' :: rest) := by
  refine ⟨rfl, fun power continues => ?_⟩
  obtain ⟨i, found, -⟩ := Option.map_eq_some_iff.mp continues
  have spelled := congrArg String.toList (Infix.spelling_eq_of_ofSpelling? found)
  rw [String.toList_ofList] at spelled
  exact absurd (congrArg List.head? spelled) i.head_spelling

theorem stops_colon : Stops k (' ' :: ':' :: ' ' :: rest) := by
  refine ⟨rfl, fun power continues => ?_⟩
  cases (rfl : continuation? (' ' :: ':' :: ' ' :: rest) = none).symm.trans continues

/-! ### What an expression begins with -/

/-- Whether a character can stand at the front of an expression. -/
def opens (c : Char) : Bool :=
  (isNameStart c || c.isDigit) || ['"', '[', '{', '(', '!', '~', '+', '-'].contains c

def Begins (allowed : Char → Prop) (cs : List Char) : Prop :=
  ∃ c more, cs = c :: more ∧ opens c = true ∧ (c ∈ ['+', '-'] → allowed c)

variable {allowed other : Char → Prop}

theorem Begins.append (begins : Begins allowed cs) : Begins allowed (cs ++ more) := by
  obtain ⟨c, after, rfl, opening, sign⟩ := begins
  exact ⟨c, after ++ more, rfl, opening, sign⟩

theorem Begins.mono (begins : Begins allowed cs) (weaker : ∀ c, allowed c → other c) :
    Begins other cs := by
  obtain ⟨c, after, rfl, opening, sign⟩ := begins
  exact ⟨c, after, rfl, opening, fun isSign => weaker c (sign isSign)⟩

theorem Begins.placed (begins : Begins allowed e.chars) :
    Begins (fun c => wrap = false ∧ allowed c) (e.placed wrap) := by
  cases wrap
  · exact begins.mono fun c isAllowed => ⟨rfl, isAllowed⟩
  · exact ⟨'(', e.chars ++ [')'], rfl, rfl, fun isSign => absurd isSign (by decide)⟩

theorem Begins.head?_ne (begins : Begins allowed cs) (closing : opens c = false) :
    cs.head? ≠ some c := by
  obtain ⟨d, after, rfl, opening, -⟩ := begins
  rintro same
  obtain rfl := Option.some.inj same
  cases closing.symm.trans opening

end Source

end Unravel
