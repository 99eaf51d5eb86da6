import Mathlib.Order.Filter.AtTopBot.Basic
import Unravel.Proofs.Source.Token
import Unravel.Source.Print

/-!
A reader of printed expressions. It climbs precedences: an operand is read to its end, then whatever
continues it as long as that binds tightly enough (`Source.Goal.rest`).

A numeral is read as one of the numbers that are given. `Source.Reads` says what comes out when the
reader is given enough steps, with one rule for each thing it can meet.
-/

namespace Unravel.Source

/-- What is to be read: an operand whose operators bind at least so tightly, the rest of one after
what has been read of it, or the members of a list after some of them. -/
inductive Goal where
  | operand (least : Nat)
  | rest (least : Nat) (left : Term)
  | items (done : List Term)
  | entries (done : List Term)

/-- A term and the text after it. A list is answered as a sequence. -/
abbrev Answer := Option (Term × List Char)

abbrev Reading := Goal → List Char → Answer

def expect (c : Char) : List Char → Option (List Char)
  | d :: cs => if d = c then some cs else none
  | [] => none

def skipSpace : List Char → List Char
  | ' ' :: cs => cs
  | cs => cs

/-- The members of a sequence. -/
def listed : Term → List Term
  | .mk (.sequence terms) => terms
  | t => [t]

/-- Several terms as a sequence. -/
def collected : List Term → Term
  | [t] => t
  | terms => .mk (.sequence terms)

/-- An operator between two operands. -/
inductive Infix where
  | binary (operator : BinaryOp)
  | logical (operator : LogicalOp)
  | assignment (operator : AssignOp)
  | choice

namespace Infix

def spelling : Infix → String
  | binary operator => operator.spelling
  | logical operator => operator.spelling
  | assignment operator => operator.spelling
  | choice => "?"

def ofSpelling? (s : String) : Option Infix :=
  ((BinaryOp.ofSpelling? s).map binary <|> (LogicalOp.ofSpelling? s).map logical) <|>
    ((AssignOp.ofSpelling? s).map assignment <|> if s = "?" then some choice else none)

def precedence : Infix → Nat
  | binary operator => operator.precedence
  | logical operator => operator.precedence
  | assignment _ => Term.assignmentPrecedence
  | choice => Term.conditionalPrecedence

def lastPrecedence : Infix → Nat
  | binary operator => if operator = .exp then operator.precedence else operator.precedence + 1
  | logical operator => operator.precedence + 1
  | assignment _ | choice => Term.assignmentPrecedence

theorem ofSpelling?_spelling (i : Infix) : ofSpelling? i.spelling = some i := by
  cases i with
  | binary operator => cases operator <;> rfl
  | logical operator => cases operator <;> rfl
  | assignment operator => cases operator <;> rfl
  | choice => rfl

theorem notMem_spelling (i : Infix) : ' ' ∉ i.spelling.toList := by
  cases i with
  | binary operator => cases operator <;> decide
  | logical operator => cases operator <;> decide
  | assignment operator => cases operator <;> decide
  | choice => decide

end Infix

def keywordOperator? : String → Option UnaryOp
  | "typeof" => some .typeOf
  | "void" => some .void
  | "delete" => some .delete
  | _ => none

def readPrefix? : List Char → Option ((Term → Term) × List Char)
  | '!' :: cs => some (fun t => .mk (.unary .not t), cs)
  | '~' :: cs => some (fun t => .mk (.unary .bitNot t), cs)
  | '+' :: '+' :: cs => some (fun t => .mk (.update .increment true t), cs)
  | '-' :: '-' :: cs => some (fun t => .mk (.update .decrement true t), cs)
  | '+' :: cs => some (fun t => .mk (.unary .plus t), skipSpace cs)
  | '-' :: cs => some (fun t => .mk (.unary .minus t), skipSpace cs)
  | cs => (keywordOperator? (word cs)).map fun operator =>
    (fun t => .mk (.unary operator t), skipSpace (afterWord cs))

def continuation? : List Char → Option Nat
  | '.' :: _ | '[' :: _ => some Term.primaryPrecedence
  | '(' :: _ => some Term.callPrecedence
  | '+' :: '+' :: _ | '-' :: '-' :: _ => some Term.postfixPrecedence
  | ' ' :: cs => (Infix.ofSpelling? (String.ofList (cs.takeWhile (· ≠ ' ')))).map Infix.precedence
  | _ => none

def ofWord : String → Term
  | "this" => .mk .this_
  | "true" => .mk (.literal (.boolean true))
  | "false" => .mk (.literal (.boolean false))
  | "null" => .mk (.literal .null)
  | name => .mk (.identifier name)

section Step

variable (numbers : List Float) (self : Reading)

def readNumber? (cs : List Char) : Answer :=
  (numbers.find? fun x => (Decimal.text x).toList = readNumeral cs).map fun x =>
    (.mk (.literal (.number x)), afterNumeral cs)

def readList? (close : Char) (cs : List Char) : Option (List Term × List Char) :=
  match expect close cs with
  | some cs => some ([], cs)
  | none => do
    let (t, cs) ← self (.items []) cs
    let cs ← expect close cs
    some (listed t, cs)

def readWhole? (close : Char) (cs : List Char) : Answer := do
  let (t, cs) ← self (.items []) cs
  let cs ← expect close cs
  some (collected (listed t), cs)

def readWord? (cs : List Char) : Answer :=
  if word cs = "new" then do
    let cs ← expect ' ' (afterWord cs)
    let (callee, cs) ← self (.operand Term.primaryPrecedence) cs
    let cs ← expect '(' cs
    let (arguments, cs) ← readList? self ')' cs
    some (.mk (.new callee arguments), cs)
  else some (ofWord (word cs), afterWord cs)

def readAtom? : List Char → Answer
  | '(' :: cs => readWhole? self ')' cs
  | '[' :: cs => (readList? self ']' cs).map fun (elements, cs) => (.mk (.array elements), cs)
  | '{' :: '}' :: cs => some (.mk (.object []), cs)
  | '{' :: ' ' :: cs => do
    let (t, cs) ← self (.entries []) cs
    let cs ← expect ' ' cs
    let cs ← expect '}' cs
    some (.mk (.object (listed t)), cs)
  | '"' :: cs =>
    (readQuoted cs).map fun (s, cs) => (.mk (.literal (.string (String.ofList s) none)), cs)
  | cs => if cs.head?.any Char.isDigit then readNumber? numbers cs else readWord? self cs

def readInfix? (left : Term) (i : Infix) (cs : List Char) : Answer := do
  let (first, cs) ← self (.operand i.lastPrecedence) cs
  match i with
  | .binary operator => some (.mk (.binary operator left first), cs)
  | .logical operator => some (.mk (.logical operator left first), cs)
  | .assignment operator => some (.mk (.assignment operator left first), cs)
  | .choice => do
    let cs ← expect ' ' cs
    let cs ← expect ':' cs
    let cs ← expect ' ' cs
    let (second, cs) ← self (.operand i.lastPrecedence) cs
    some (.mk (.conditional left first second), cs)

def readContinuation? (left : Term) : List Char → Answer
  | '.' :: cs => some (.mk (.member left (.identifier (word cs)) false), afterWord cs)
  | '[' :: cs => (readWhole? self ']' cs).map fun (key, cs) => (.mk (.member left key true), cs)
  | '(' :: cs => (readList? self ')' cs).map fun (arguments, cs) => (.mk (.call left arguments), cs)
  | '+' :: '+' :: cs => some (.mk (.update .increment false left), cs)
  | '-' :: '-' :: cs => some (.mk (.update .decrement false left), cs)
  | ' ' :: cs => do
    let i ← Infix.ofSpelling? (String.ofList (cs.takeWhile (· ≠ ' ')))
    let cs ← expect ' ' (cs.dropWhile (· ≠ ' '))
    readInfix? self left i cs
  | _ => none

def readKey? : List Char → Option (Term × Bool × List Char)
  | '[' :: cs => do
    let (key, cs) ← self (.operand Term.assignmentPrecedence) cs
    let cs ← expect ']' cs
    some (key, true, cs)
  | '"' :: cs => (readQuoted cs).map fun (s, cs) =>
      (.mk (.literal (.string (String.ofList s) none)), false, cs)
  | cs =>
    if cs.head?.any Char.isDigit then
      (readNumber? numbers cs).map fun (key, cs) => (key, false, cs)
    else some (.identifier (word cs), false, afterWord cs)

def readPair? (cs : List Char) : Answer := do
  let (key, computed, cs) ← readKey? numbers self cs
  let cs ← expect ':' cs
  let cs ← expect ' ' cs
  let (value, cs) ← self (.operand Term.assignmentPrecedence) cs
  some (.mk (.property key value computed), cs)

def readMore? (goal : List Term → Goal) (done : List Term) : Term × List Char → Answer
  | (t, ',' :: ' ' :: cs) => self (goal (done ++ [t])) cs
  | (t, cs) => some (.mk (.sequence (done ++ [t])), cs)

def readStep : Reading
  | .operand least, cs =>
    match readPrefix? cs with
    | some (build, cs) => do
      let (argument, cs) ← self (.operand Term.unaryPrecedence) cs
      self (.rest least (build argument)) cs
    | none => do
      let (t, cs) ← readAtom? numbers self cs
      self (.rest least t) cs
  | .rest least left, cs =>
    if (continuation? cs).all (· < least) then some (left, cs)
    else do
      let (t, cs) ← readContinuation? self left cs
      self (.rest least t) cs
  | .items done, cs =>
    do readMore? self .items done (← self (.operand Term.assignmentPrecedence) cs)
  | .entries done, cs => do readMore? self .entries done (← readPair? numbers self cs)

end Step

def readWithin (numbers : List Float) : Nat → Reading
  | 0 => fun _ _ => none
  | limit + 1 => readStep numbers (readWithin numbers limit)

open Filter

/-- With enough steps, the reader gives an answer. -/
def Reads (numbers : List Float) (goal : Goal) (cs : List Char)
    (answer : Term × List Char) : Prop :=
  ∀ᶠ limit in atTop, readWithin numbers limit goal cs = some answer

def Gives {α : Type} (numbers : List Float) (part : Reading → Option α) (result : α) : Prop :=
  ∀ᶠ limit in atTop, part (readWithin numbers limit) = some result

variable {numbers : List Float} {goal : Goal} {cs rest more : List Char}
  {answer other : Term × List Char} {least : Nat} {t left : Term} {ts done : List Term}
  {close : Char}

theorem Reads.unique (first : Reads numbers goal cs answer) (second : Reads numbers goal cs other) :
    answer = other := by
  obtain ⟨limit, first, second⟩ := (first.and second).exists
  exact Option.some.inj (first.symm.trans second)

theorem reads_of_readStep (made : Gives numbers (readStep numbers · goal cs) answer) :
    Reads numbers goal cs answer := by
  obtain ⟨enough, made⟩ := eventually_atTop.mp made
  refine eventually_atTop.mpr ⟨enough + 1, fun limit large => ?_⟩
  obtain ⟨limit, rfl⟩ := Nat.exists_eq_add_of_le' (Nat.le_trans (Nat.le_add_left 1 enough) large)
  exact made limit (by omega)

theorem reads_prefix {build : Term → Term} (isPrefix : readPrefix? cs = some (build, more))
    (argument : Reads numbers (.operand Term.unaryPrecedence) more (t, rest))
    (continued : Reads numbers (.rest least (build t)) rest answer) :
    Reads numbers (.operand least) cs answer := by
  apply reads_of_readStep
  filter_upwards [argument, continued] with limit argument continued
  simp [readStep, isPrefix, argument, continued]

theorem reads_atom (noPrefix : readPrefix? cs = none)
    (atom : Gives numbers (readAtom? numbers · cs) (t, rest))
    (continued : Reads numbers (.rest least t) rest answer) :
    Reads numbers (.operand least) cs answer := by
  apply reads_of_readStep
  filter_upwards [atom, continued] with limit atom continued
  simp [readStep, noPrefix, atom, continued]

theorem reads_rest_of_stop (stops : (continuation? cs).all (· < least) = true) :
    Reads numbers (.rest least left) cs (left, cs) := by
  apply reads_of_readStep
  refine .of_forall fun limit => ?_
  simp only [readStep, if_pos stops]

theorem reads_rest {power : Nat} (continues : continuation? cs = some power) (tight : least ≤ power)
    (step : Gives numbers (readContinuation? · left cs) (t, rest))
    (continued : Reads numbers (.rest least t) rest answer) :
    Reads numbers (.rest least left) cs answer := by
  apply reads_of_readStep
  filter_upwards [step, continued] with limit step continued
  simp [readStep, continues, tight, step, continued]

/-! ### Lists -/

theorem reads_items_last (item : Reads numbers (.operand Term.assignmentPrecedence) cs (t, rest))
    (noComma : rest.head? ≠ some ',') :
    Reads numbers (.items done) cs (.mk (.sequence (done ++ [t])), rest) := by
  apply reads_of_readStep
  filter_upwards [item] with limit item
  simp only [readStep, item, Option.bind_eq_bind, Option.bind_some]
  unfold readMore?
  split
  · simp_all
  · simp_all

theorem reads_items_more
    (item : Reads numbers (.operand Term.assignmentPrecedence) cs (t, ',' :: ' ' :: rest))
    (continued : Reads numbers (.items (done ++ [t])) rest answer) :
    Reads numbers (.items done) cs answer := by
  apply reads_of_readStep
  filter_upwards [item, continued] with limit item continued
  simp [readStep, item, readMore?, continued]

theorem reads_entries_last (entry : Gives numbers (readPair? numbers · cs) (t, rest))
    (noComma : rest.head? ≠ some ',') :
    Reads numbers (.entries done) cs (.mk (.sequence (done ++ [t])), rest) := by
  apply reads_of_readStep
  filter_upwards [entry] with limit entry
  simp only [readStep, entry, Option.bind_eq_bind, Option.bind_some]
  unfold readMore?
  split
  · simp_all
  · simp_all

theorem reads_entries_more (entry : Gives numbers (readPair? numbers · cs) (t, ',' :: ' ' :: rest))
    (continued : Reads numbers (.entries (done ++ [t])) rest answer) :
    Reads numbers (.entries done) cs answer := by
  apply reads_of_readStep
  filter_upwards [entry, continued] with limit entry continued
  simp [readStep, entry, readMore?, continued]

@[simp] theorem expect_self (c : Char) (cs : List Char) :
    expect c (c :: cs) = some cs := by simp [expect]

theorem expect_of_ne {c : Char} (different : cs.head? ≠ some c) : expect c cs = none := by
  unfold expect
  split <;> simp_all

theorem gives_nil : Gives numbers (readList? · close (close :: rest)) ([], rest) :=
  .of_forall fun limit => by simp [readList?]

theorem gives_list (opens : cs.head? ≠ some close)
    (items : Reads numbers (.items []) cs (t, close :: rest)) :
    Gives numbers (readList? · close cs) (listed t, rest) := by
  filter_upwards [items] with limit items
  simp [readList?, expect_of_ne opens, items]

theorem gives_whole (items : Reads numbers (.items []) cs (t, close :: rest)) :
    Gives numbers (readWhole? · close cs) (collected (listed t), rest) := by
  filter_upwards [items] with limit items
  simp [readWhole?, items]

theorem Gives.map {α β : Type} {part : Reading → Option α} {result : α}
    (gives : Gives numbers part result) (f : α → β) :
    Gives numbers (fun self => (part self).map f) (f result) := by
  filter_upwards [gives] with limit gives
  rw [gives, Option.map_some]

end Unravel.Source
