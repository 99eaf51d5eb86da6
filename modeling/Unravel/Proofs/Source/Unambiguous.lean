import Unravel.Proofs.Source.Expression
import Unravel.Proofs.Tree.Term

/-!
The text of an expression has one reading. What is read off the text of an expression is that
expression (`Source.ReadsBack`), by induction on the expression: an operand is read at every binding
power up to its own (`Term.power`), in front of every text that does not continue it
(`Source.Stops`).

A numeral is only known to be plain and to be that of one number (`Source.Numerals`).
-/

namespace Unravel

open Source

namespace Source

variable {numbers : List Float} {e left right : Term} {cs rest more : List Char}
  {answer : Term × List Char} {least k : Nat} {c : Char} {i : Infix} {s : String} {wrap : Bool}

/-! ### Expressions that are read back -/

structure ReadsBack (numbers : List Float) (e : Term) : Prop where
  begins : Begins (fun c => Term.unaryPrecedence ≤ e.precedence → e.sign? = some c) e.chars
  operand : ∀ {least rest answer}, 1 ≤ least → least ≤ e.power → Stops e.limit rest →
    Reads numbers (.rest least e) rest answer →
    Reads numbers (.operand least) (e.chars ++ rest) answer
  whole : ∀ {rest}, Stops 1 rest → rest.head? ≠ some ',' →
    ∃ t, Reads numbers (.items []) (e.chars ++ rest) (t, rest) ∧ collected (listed t) = e

theorem ReadsBack.of_operand
    (begins : Begins (fun c => Term.unaryPrecedence ≤ e.precedence → e.sign? = some c) e.chars)
    (positive : 1 ≤ e.precedence)
    (operand : ∀ {least rest answer}, 1 ≤ least → least ≤ e.power → Stops e.limit rest →
      Reads numbers (.rest least e) rest answer →
      Reads numbers (.operand least) (e.chars ++ rest) answer) :
    ReadsBack numbers e := by
  refine ⟨begins, operand, fun stops noComma => ⟨.mk (.sequence ([] ++ [e])), ?_, rfl⟩⟩
  have remaining := stops.mono (Term.le_limit positive (by decide))
  exact reads_items_last (operand (Nat.le_refl 1) (positive.trans e.precedence_le_power)
    remaining stops.reads) noComma

theorem ReadsBack.placed (reads : ReadsBack numbers e)
    (fits : wrap = false → 1 ≤ least ∧ least ≤ e.power ∧ Stops e.limit rest)
    (continued : Reads numbers (.rest least e) rest answer) :
    Reads numbers (.operand least) (e.placed wrap ++ rest) answer := by
  cases wrap with
  | false =>
    obtain ⟨positive, tight, stops⟩ := fits rfl
    exact reads.operand positive tight stops continued
  | true =>
    change Reads numbers (.operand least) ('(' :: (e.chars ++ [')'] ++ rest)) answer
    rw [List.append_assoc, List.singleton_append]
    have closed : Stops 1 (')' :: rest) := stops_closing (.inl rfl)
    obtain ⟨t, whole, same⟩ := reads.whole closed (by simp)
    have atom := gives_whole whole
    rw [same] at atom
    exact reads_atom rfl atom continued

theorem ReadsBack.reads_last (reads : ReadsBack numbers e) (positive : 1 ≤ k)
    (different : k ≠ Term.conditionalPrecedence) (fits : wrap = false → k ≤ e.precedence)
    (stops : Stops k rest) :
    Reads numbers (.operand k) (e.placed wrap ++ rest) (e, rest) := by
  refine reads.placed (fun bare => ⟨positive, (fits bare).trans e.precedence_le_power, ?_⟩)
    stops.reads
  exact stops.mono (Term.le_limit (fits bare) different)

theorem ReadsBack.reads_item (reads : ReadsBack numbers e) (stops : Stops 1 rest) :
    Reads numbers (.operand Term.assignmentPrecedence)
      (e.placed (e.precedence < Term.assignmentPrecedence) ++ rest) (e, rest) :=
  reads.reads_last (Nat.le_refl 1) (by decide) (by simp) stops

theorem ReadsBack.begins_item (reads : ReadsBack numbers e) :
    Begins (fun _ => True) (e.placed (e.precedence < Term.assignmentPrecedence)) :=
  reads.begins.placed.mono fun _ _ => trivial

/-! ### Lists -/

theorem listChars_singleton (text : List Char) : Term.listChars [text] = text := by
  simp [Term.listChars]

theorem listChars_cons_cons (first second : List Char) (others : List (List Char)) :
    Term.listChars (first :: second :: others) =
      first ++ ',' :: ' ' :: Term.listChars (second :: others) := by
  simp [Term.listChars, List.intercalate]

theorem reads_list {goal : List Term → Goal} {text : Term → List Char} {ts : List Term}
    (done : List Term) (nonempty : ts ≠ [])
    (last : ∀ t ∈ ts, ∀ done, Reads numbers (goal done) (text t ++ rest)
      (.mk (.sequence (done ++ [t])), rest))
    (more : ∀ t ∈ ts, ∀ done cs answer, Reads numbers (goal (done ++ [t])) cs answer →
      Reads numbers (goal done) (text t ++ ',' :: ' ' :: cs) answer) :
    Reads numbers (goal done) (Term.listChars (ts.map text) ++ rest)
      (.mk (.sequence (done ++ ts)), rest) := by
  induction ts generalizing done with
  | nil => exact absurd rfl nonempty
  | cons t ts induction =>
    cases ts with
    | nil =>
      rw [List.map_singleton, listChars_singleton]
      exact last t List.mem_cons_self done
    | cons u ts =>
      have others := induction (done ++ [t]) (List.cons_ne_nil u ts)
        (fun v isLater => last v (List.mem_cons_of_mem t isLater))
        (fun v isLater => more v (List.mem_cons_of_mem t isLater))
      rw [List.append_assoc, List.singleton_append] at others
      rw [List.map_cons, List.map_cons, listChars_cons_cons, List.append_assoc]
      exact more t List.mem_cons_self done _ _ others

theorem begins_itemChars {ts : List Term} (nonempty : ts ≠ [])
    (each : ∀ t ∈ ts, ReadsBack numbers t) :
    Begins (fun _ => True) (Term.itemChars ts) := by
  match ts with
  | [] => exact absurd rfl nonempty
  | [t] =>
    rw [Term.itemChars, List.map_singleton, listChars_singleton]
    exact (each t List.mem_cons_self).begins_item
  | t :: u :: ts =>
    rw [Term.itemChars, List.map_cons, List.map_cons, listChars_cons_cons]
    exact (each t List.mem_cons_self).begins_item.append

theorem reads_itemChars {ts : List Term} (nonempty : ts ≠ []) (each : ∀ t ∈ ts, ReadsBack numbers t)
    (stops : Stops 1 rest) (noComma : rest.head? ≠ some ',') :
    Reads numbers (.items []) (Term.itemChars ts ++ rest) (.mk (.sequence ts), rest) := by
  refine reads_list [] nonempty (fun t isItem done => ?_)
    (fun t isItem done cs answer continued => ?_)
  · exact reads_items_last ((each t isItem).reads_item stops) noComma
  · exact reads_items_more ((each t isItem).reads_item (stops_closing (.inr (.inr rfl)))) continued

theorem gives_itemChars {ts : List Term} {close : Char} (each : ∀ t ∈ ts, ReadsBack numbers t)
    (closing : close = ')' ∨ close = ']') :
    Gives numbers (readList? · close (Term.itemChars ts ++ close :: rest)) (ts, rest) := by
  cases ts with
  | nil => exact gives_nil
  | cons t ts =>
    have isOver : opens close = false ∧ close ≠ ',' := by obtain rfl | rfl := closing <;> decide
    refine gives_list ?_ (reads_itemChars (List.cons_ne_nil t ts) each (stops_closing ?_) ?_)
    · exact (begins_itemChars (List.cons_ne_nil t ts) each).append.head?_ne isOver.1
    · exact closing.imp id .inl
    · simpa using isOver.2

/-! ### Atoms -/

theorem ReadsBack.of_atom (begins : Begins (fun _ => False) e.chars) (positive : 1 ≤ e.precedence)
    (noPrefix : ∀ rest, ends rest = true → readPrefix? (e.chars ++ rest) = none)
    (atom : ∀ rest, ends rest = true →
      Gives numbers (readAtom? numbers · (e.chars ++ rest)) (e, rest)) :
    ReadsBack numbers e := by
  refine .of_operand (begins.mono fun _ => False.elim) positive
    fun {least rest answer} _ _ stops continued =>
      ?_
  exact reads_atom (noPrefix rest stops.1) (atom rest stops.1) continued

theorem readPrefix?_of_plain (plain : c ∉ ['!', '~', '+', '-'])
    (noOperator : keywordOperator? (word (c :: cs)) = none) : readPrefix? (c :: cs) = none := by
  unfold readPrefix?
  split
  case h_7 =>
    rw [noOperator]
    rfl
  all_goals
    rename_i same
    rw [List.cons.injEq] at same
    rw [same.1] at plain
    exact absurd (by decide) plain

theorem readAtom?_of_plain (plain : c ∉ ['(', '[', '{', '"']) (self : Reading) :
    readAtom? numbers self (c :: cs) =
      if c.isDigit then readNumber? numbers (c :: cs) else readWord? self (c :: cs) := by
  unfold readAtom?
  split
  case h_6 => rfl
  all_goals
    rename_i same
    rw [List.cons.injEq] at same
    rw [same.1] at plain
    exact absurd (by decide) plain

theorem readKey?_of_plain (plain : c ∉ ['[', '"']) (self : Reading) :
    readKey? numbers self (c :: cs) =
      if c.isDigit then (readNumber? numbers (c :: cs)).map fun (key, cs) => (key, false, cs)
      else some (.identifier (word (c :: cs)), false, afterWord (c :: cs)) := by
  unfold readKey?
  split
  case h_3 => rfl
  all_goals
    rename_i same
    rw [List.cons.injEq] at same
    rw [same.1] at plain
    exact absurd (by decide) plain

theorem notMem_of_isNameStart {cs : List Char} (isStart : isNameStart c = true)
    (others : cs.all (fun d => !isNameStart d) = true) : c ∉ cs := by
  intro isIn
  have different := List.all_eq_true.mp others c isIn
  rw [isStart] at different
  cases different

theorem notMem_of_isDigit {cs : List Char} (isDigit : c.isDigit = true)
    (others : cs.all (fun d => !d.isDigit) = true) : c ∉ cs := by
  intro isIn
  have different := List.all_eq_true.mp others c isIn
  rw [isDigit] at different
  cases different

structure IsWord (s : String) : Prop where
  starts : ∃ c cs, s.toList = c :: cs ∧ isNameStart c = true
  all : s.toList.all isNamePart = true
  notOperator : keywordOperator? s = none

theorem IsWord.begins (isWord : IsWord s) : Begins (fun _ => False) s.toList := by
  obtain ⟨c, cs, spelled, isStart⟩ := isWord.starts
  refine ⟨c, cs, spelled, ?_, notMem_of_isNameStart isStart (by decide)⟩
  rw [opens, isStart, Bool.true_or, Bool.true_or]

theorem IsWord.readPrefix?_eq_none (isWord : IsWord s) (isEnd : ends rest = true) :
    readPrefix? (s.toList ++ rest) = none := by
  obtain ⟨c, cs, spelled, isStart⟩ := isWord.starts
  have read := (word_append isWord.all isEnd).1
  rw [spelled, List.cons_append] at read ⊢
  exact readPrefix?_of_plain (notMem_of_isNameStart isStart (by decide)) (read ▸ isWord.notOperator)

theorem IsWord.readAtom?_eq (isWord : IsWord s) (self : Reading) :
    readAtom? numbers self (s.toList ++ rest) = readWord? self (s.toList ++ rest) := by
  obtain ⟨c, cs, spelled, isStart⟩ := isWord.starts
  rw [spelled, List.cons_append, readAtom?_of_plain (notMem_of_isNameStart isStart (by decide)),
    if_neg]
  simp [not_isDigit_of_isNameStart isStart]

theorem ReadsBack.of_isWord (isWord : IsWord s) (spelled : e.chars = s.toList)
    (positive : 1 ≤ e.precedence) (notNew : s ≠ "new") (same : ofWord s = e) :
    ReadsBack numbers e := by
  refine .of_atom (spelled ▸ isWord.begins) positive (fun rest isEnd => ?_) (fun rest isEnd => ?_)
  · rw [spelled]
    exact isWord.readPrefix?_eq_none isEnd
  · obtain ⟨read, remaining⟩ := word_append isWord.all isEnd
    refine .of_forall fun limit => ?_
    change readAtom? numbers _ (e.chars ++ rest) = _
    rw [spelled, isWord.readAtom?_eq, readWord?, read, remaining, if_neg notNew, same]

theorem ReadsBack.identifier {name : String} (valid : isIdentifierName name = true) :
    ReadsBack numbers (.mk (.identifier name)) := by
  obtain ⟨c, cs, spelled, isStart, all, free⟩ := exists_of_isIdentifierName valid
  have different {other : String} (reserved : isReservedWord other = true) : name ≠ other := by
    rintro rfl
    cases free.symm.trans reserved
  refine .of_isWord ⟨⟨c, cs, spelled, isStart⟩, all, ?_⟩ Term.chars_identifier
    (show 1 ≤ 18 by decide) (different (by decide)) ?_
  · unfold keywordOperator?
    split
    · exact absurd rfl (different (by decide))
    · exact absurd rfl (different (by decide))
    · exact absurd rfl (different (by decide))
    · rfl
  · unfold ofWord
    split
    · exact absurd rfl (different (by decide))
    · exact absurd rfl (different (by decide))
    · exact absurd rfl (different (by decide))
    · exact absurd rfl (different (by decide))
    · rfl

theorem ReadsBack.this_ : ReadsBack numbers (.mk .this_) :=
  .of_isWord ⟨⟨'t', _, rfl, by decide⟩, by decide, by decide⟩ Term.chars_this (by decide)
    (by decide) rfl

theorem ReadsBack.boolean (b : Bool) : ReadsBack numbers (.mk (.literal (.boolean b))) := by
  cases b
  · exact .of_isWord ⟨⟨'f', _, rfl, by decide⟩, by decide, by decide⟩
      (Term.chars_literal _) (by decide) (by decide) rfl
  · exact .of_isWord ⟨⟨'t', _, rfl, by decide⟩, by decide, by decide⟩
      (Term.chars_literal _) (by decide) (by decide) rfl

theorem ReadsBack.null : ReadsBack numbers (.mk (.literal .null)) :=
  .of_isWord ⟨⟨'n', _, rfl, by decide⟩, by decide, by decide⟩ (Term.chars_literal _) (by decide)
    (by decide) rfl

theorem chars_string (value : String) : (Term.mk (.literal (.string value none))).chars =
    '"' :: (value.toList.flatMap escape ++ ['"']) := by
  rw [Term.chars_literal, Term.literalText, quote, String.toList_ofList]

theorem ReadsBack.string (value : String) :
    ReadsBack numbers (.mk (.literal (.string value none))) := by
  refine .of_atom ⟨'"', _, chars_string value, rfl, by decide⟩ (show 1 ≤ 18 by decide)
    (fun rest _ => ?_) (fun rest _ => .of_forall fun limit => ?_)
  · rw [chars_string]
    rfl
  · change readAtom? numbers _ ((Term.mk (.literal (.string value none))).chars ++ rest) = _
    rw [chars_string, List.cons_append, List.append_assoc, List.singleton_append, readAtom?,
      readQuoted_flatMap,
      Option.map_some]
    simp only [String.ofList_toList]

/-- The numbers that are spelled by plain numerals of their own. -/
structure Numerals (numbers : List Float) : Prop where
  nonnegative : ∀ x ∈ numbers, Double.isNegative x = false
  numeral : ∀ x ∈ numbers, isNumeral (Decimal.text x).toList = true
  injective : ∀ x ∈ numbers, ∀ y ∈ numbers, Decimal.text x = Decimal.text y → x = y

theorem Numerals.readNumber?_append {x : Float} (numerals : Numerals numbers) (known : x ∈ numbers)
    (isEnd : ends rest = true) :
    readNumber? numbers ((Decimal.text x).toList ++ rest) =
      some (.mk (.literal (.number x)), rest) := by
  obtain ⟨read, remaining⟩ := readNumeral_append (numerals.numeral x known) isEnd
  have found : numbers.find? (fun y => (Decimal.text y).toList = (Decimal.text x).toList) =
      some x := by
    cases h : numbers.find? (fun y => (Decimal.text y).toList = (Decimal.text x).toList) with
    | none => exact absurd (decide_eq_true rfl) (List.find?_eq_none.mp h x known)
    | some y =>
      have same := of_decide_eq_true (List.find?_some h :)
      rw [numerals.injective y (List.mem_of_find?_eq_some h) x known (String.toList_inj.mp same)]
  rw [readNumber?, read, remaining, found, Option.map_some]

theorem Numerals.exists_digit {x : Float} (numerals : Numerals numbers) (known : x ∈ numbers) :
    ∃ c cs, (Decimal.text x).toList = c :: cs ∧ c.isDigit = true := by
  have numeral := numerals.numeral x known
  rw [isNumeral, Bool.and_eq_true, Option.any_eq_true] at numeral
  obtain ⟨c, isHead, isDigit⟩ := numeral.1
  obtain ⟨cs, spelled⟩ := List.head?_eq_some_iff.mp isHead
  exact ⟨c, cs, spelled, isDigit⟩

theorem keywordOperator?_of_isDigit (isDigit : c.isDigit = true) :
    keywordOperator? (word (c :: cs)) = none := by
  have begins : (word (c :: cs)).toList.head? = some c := by
    rw [word, String.toList_ofList, List.takeWhile_cons, if_pos (isNamePart_of_isDigit isDigit),
      List.head?_cons]
  have noLetter : c ∉ ['t', 'v', 'd'] := notMem_of_isDigit isDigit (by decide)
  unfold keywordOperator?
  split
  case h_4 => rfl
  all_goals
    rename_i spelled
    rw [spelled] at begins
    exact absurd (Option.some.inj begins ▸ by decide) noLetter

theorem ReadsBack.number {x : Float} (numerals : Numerals numbers) (known : x ∈ numbers) :
    ReadsBack numbers (.mk (.literal (.number x))) := by
  obtain ⟨c, cs, spelled, isDigit⟩ := numerals.exists_digit known
  have chars : (Term.mk (.literal (.number x))).chars = (Decimal.text x).toList :=
    Term.chars_literal _
  have positive : 1 ≤ (Term.mk (.literal (.number x))).precedence := by
    change 1 ≤ if Double.isNegative x then 15 else 18
    split <;> decide
  refine .of_atom ⟨c, cs, chars.trans spelled, ?_, notMem_of_isDigit isDigit (by decide)⟩ positive
    (fun rest _ => ?_) (fun rest isEnd => .of_forall fun limit => ?_)
  · rw [opens, isDigit, Bool.or_true, Bool.true_or]
  · rw [chars, spelled, List.cons_append]
    exact readPrefix?_of_plain (notMem_of_isDigit isDigit (by decide))
      (keywordOperator?_of_isDigit isDigit)
  · change readAtom? numbers _ ((Term.mk (.literal (.number x))).chars ++ rest) = _
    rw [chars, ← numerals.readNumber?_append known isEnd, spelled, List.cons_append,
      readAtom?_of_plain (notMem_of_isDigit isDigit (by decide)), if_pos isDigit]

theorem ReadsBack.array {ts : List Term} (each : ∀ t ∈ ts, ReadsBack numbers t) :
    ReadsBack numbers (.mk (.array ts)) := by
  refine .of_atom ⟨'[', _, Term.chars_array, rfl, by decide⟩ (show 1 ≤ 18 by decide)
    (fun rest _ => ?_) (fun rest _ => ?_)
  · rw [Term.chars_array]
    rfl
  · rw [Term.chars_array, List.cons_append, List.append_assoc, List.singleton_append]
    exact (gives_itemChars each (.inr rfl)).map fun parsed => (Term.mk (.array parsed.1), parsed.2)

/-! ### Objects -/

theorem gives_computedKey {key : Term} (onKey : ReadsBack numbers key) :
    Gives numbers
      (readKey? numbers ·
        ('[' :: (key.placed (key.precedence < Term.assignmentPrecedence) ++ ']' :: rest)))
          (key, true, rest) := by
  have read := onKey.reads_item (stops_closing (.inr (.inl rfl)) : Stops 1 (']' :: rest))
  filter_upwards [read] with limit read
  simp [readKey?, read]

theorem gives_key {key : Term} (numerals : Numerals numbers) (expression : IsExpression numbers key)
    (plain : key.isKey = true) :
    Gives numbers (readKey? numbers · (key.chars ++ ':' :: rest)) (key, false, ':' :: rest) := by
  have isEnd : ends (':' :: rest) = true := rfl
  refine .of_forall fun limit => ?_
  change readKey? numbers _ (key.chars ++ ':' :: rest) = _
  cases expression with
  | identifier valid =>
    obtain ⟨c, cs, spelled, isStart, all, -⟩ := exists_of_isIdentifierName valid
    obtain ⟨read, remaining⟩ := word_append all isEnd
    rw [Term.chars_identifier]
    rw [spelled, List.cons_append] at read remaining ⊢
    rw [readKey?_of_plain (notMem_of_isNameStart isStart (by decide)), if_neg, read, remaining]
    · rfl
    · simp [not_isDigit_of_isNameStart isStart]
  | string value =>
    rw [chars_string, List.cons_append, List.append_assoc, List.singleton_append, readKey?,
      readQuoted_flatMap,
      Option.map_some]
    simp only [String.ofList_toList]
  | number known =>
    obtain ⟨c, cs, spelled, isDigit⟩ := numerals.exists_digit known
    have read := numerals.readNumber?_append known isEnd
    rw [Term.chars_literal, Term.literalText]
    rw [spelled, List.cons_append] at read ⊢
    rw [readKey?_of_plain (notMem_of_isDigit isDigit (by decide)), if_pos isDigit, read]
    rfl
  | _ => cases plain

theorem gives_entry {entry : Entry} (numerals : Numerals numbers)
    (expression : IsExpression numbers entry.key)
    (plain : entry.computed = false → entry.key.isKey = true) (onKey : ReadsBack numbers entry.key)
    (onValue : ReadsBack numbers entry.value) (stops : Stops 1 rest) :
    Gives numbers (readPair? numbers · (entry.term.chars ++ rest)) (entry.term, rest) := by
  obtain ⟨key, value, computed⟩ := entry
  have read := onValue.reads_item stops
  have keyed :
      Gives numbers (readKey? numbers · ((Term.mk (.property key value computed)).chars ++ rest))
        (key, computed,
          ':' :: ' ' :: (value.placed (value.precedence < Term.assignmentPrecedence) ++ rest)) := by
    rw [Term.chars_property, List.append_assoc]
    cases computed with
    | true =>
      rw [if_pos rfl, List.cons_append, List.append_assoc, List.singleton_append]
      exact gives_computedKey onKey
    | false =>
      rw [if_neg Bool.false_ne_true]
      exact gives_key numerals expression (plain rfl)
  filter_upwards [read, keyed] with limit read keyed
  simp only [Entry.term, readPair?, Option.bind_eq_bind]
  rw [keyed]
  simp [read]

theorem ReadsBack.object {entries : List Entry}
    (each : ∀ e ∈ entries, ∀ rest, Stops 1 rest →
      Gives numbers (readPair? numbers · (e.term.chars ++ rest)) (e.term, rest)) :
    ReadsBack numbers (.mk (.object (entries.map Entry.term))) := by
  have chars : (Term.mk (.object (entries.map Entry.term))).chars = _ := Term.chars_object
  cases entries with
  | nil =>
    refine .of_atom ⟨'{', _, chars, rfl, by decide⟩ (show 1 ≤ 18 by decide)
      (fun rest _ => ?_) (fun rest _ => .of_forall fun limit => ?_)
    · rw [chars]
      rfl
    · rw [chars]
      rfl
  | cons first others =>
    rw [if_neg (by simp)] at chars
    refine .of_atom ⟨'{', _, chars, rfl, by decide⟩ (show 1 ≤ 18 by decide)
      (fun rest _ => ?_) (fun rest _ => ?_)
    · rw [chars]
      rfl
    · have read : Reads numbers (.entries [])
          (Term.listChars (((first :: others).map Entry.term).map Term.chars) ++
            ' ' :: '}' :: rest) (.mk (.sequence ((first :: others).map Entry.term)), ' ' ::
              '}' :: rest) := by
        refine reads_list [] (by simp) (fun t isEntry done => ?_)
          (fun t isEntry done cs answer continued => ?_)
        · obtain ⟨e, isOne, rfl⟩ := List.mem_map.mp isEntry
          exact reads_entries_last (each e isOne _ stops_brace) (by simp)
        · obtain ⟨e, isOne, rfl⟩ := List.mem_map.mp isEntry
          exact reads_entries_more (each e isOne _ (stops_closing (.inr (.inr rfl)))) continued
      rw [chars]
      filter_upwards [read] with limit read
      simp only [List.cons_append, List.append_assoc, List.nil_append, readAtom?, read,
        Option.bind_eq_bind, Option.bind_some, expect_self, listed]

/-! ### Operators -/

theorem le_of_bare {a b : Nat} (bare : decide (a < b) = false) :
    b ≤ a :=
  Nat.le_of_not_lt (of_decide_eq_false bare)

theorem ReadsBack.of_continuation {base : Term} {tail : List Char} (onBase : ReadsBack numbers base)
    (chars : e.chars = base.placed wrap ++ tail) (tight : Term.postfixPrecedence ≤ e.precedence)
    (fits : wrap = false → e.power ≤ base.power ∧ Term.postfixPrecedence ≤ base.precedence)
    (continues : ∀ rest, ends rest = true → ends (tail ++ rest) = true ∧
      ∃ power, continuation? (tail ++ rest) = some power ∧ e.power ≤ power)
    (step : ∀ rest, ends rest = true →
      Gives numbers (readContinuation? · base (tail ++ rest)) (e, rest)) :
    ReadsBack numbers e := by
  have positive : 1 ≤ e.precedence := Nat.le_trans (show 1 ≤ 16 by decide) tight
  refine .of_operand ?_ positive fun {least rest answer} positive le stops continued => ?_
  · rw [chars]
    refine (onBase.begins.placed.mono fun c ⟨bare, signed⟩ => ?_).append
    have tight := (fits bare).2
    have loose := Term.precedence_of_sign? (signed (Nat.le_of_succ_le tight))
    exact absurd (loose ▸ tight) (by decide)
  · obtain ⟨isEnd, power, continues, above⟩ := continues rest stops.1
    rw [chars, List.append_assoc]
    apply onBase.placed
    · intro bare
      obtain ⟨holds, tight⟩ := fits bare
      refine ⟨positive, le.trans holds, ?_⟩
      rw [Term.limit_of_tight tight]
      exact stops_of_ends isEnd
    · exact reads_rest continues (le.trans above) (step rest stops.1) continued

theorem ReadsBack.update_trailing (operator : UpdateOp) {argument : Term}
    (onArgument : ReadsBack numbers argument)
    (target : argument.isTarget = true) :
    ReadsBack numbers (.mk (.update operator false argument)) := by
  have tight := Term.tight_of_isTarget target
  have tight : 16 ≤ argument.precedence := Nat.le_trans (show 16 ≤ 17 by decide) tight
  refine .of_continuation onArgument Term.chars_update (Nat.le_refl 16)
    (fun _ => ⟨tight.trans argument.precedence_le_power, tight⟩) (fun rest _ => ?_)
    (fun rest _ => ?_)
  · cases operator <;> exact ⟨rfl, 16, rfl, Nat.le_refl 16⟩
  · refine .of_forall fun limit => ?_
    cases operator <;> rfl

theorem ends_property {name : String} (valid : isIdentifierName name = true) :
    ends ('.' :: (name.toList ++ rest)) = true := by
  obtain ⟨c, cs, spelled, isStart, -⟩ := exists_of_isIdentifierName valid
  rw [spelled]
  change (!c.isDigit) = true
  rw [not_isDigit_of_isNameStart isStart]
  rfl

theorem ReadsBack.property {base : Term} {name : String} (onBase : ReadsBack numbers base)
    (valid : isIdentifierName name = true) :
    ReadsBack numbers (.mk (.member base (.mk (.identifier name)) false)) := by
  obtain ⟨c, cs, -, -, all, -⟩ := exists_of_isIdentifierName valid
  refine .of_continuation onBase Term.chars_member (show 16 ≤ 17 by decide) (fun bare => ?_)
    (fun rest _ => ?_)
    (fun rest isEnd => ?_)
  · simp only [Bool.or_eq_false_iff, decide_eq_false_iff_not, Nat.not_lt] at bare
    exact ⟨Term.power_member_le bare.2, Nat.le_trans (show 16 ≤ 17 by decide) bare.2⟩
  · rw [if_neg Bool.false_ne_true, Term.chars_identifier]
    exact ⟨ends_property valid, 18, rfl, Term.power_le _⟩
  · rw [if_neg Bool.false_ne_true, Term.chars_identifier, List.cons_append]
    obtain ⟨read, remaining⟩ := word_append all isEnd
    refine .of_forall fun limit => ?_
    simp only [readContinuation?, read, remaining]
    rfl

theorem ReadsBack.element {base key : Term} (onBase : ReadsBack numbers base)
    (onKey : ReadsBack numbers key) :
    ReadsBack numbers (.mk (.member base key true)) := by
  refine .of_continuation onBase Term.chars_member (show 16 ≤ 17 by decide) (fun bare => ?_)
    (fun rest _ => ?_)
    (fun rest isEnd => ?_)
  · simp only [Bool.or_eq_false_iff, decide_eq_false_iff_not, Nat.not_lt] at bare
    exact ⟨Term.power_member_le bare.2, Nat.le_trans (show 16 ≤ 17 by decide) bare.2⟩
  · exact ⟨rfl, 18, rfl, Term.power_le _⟩
  · rw [if_pos rfl, List.cons_append, List.append_assoc, List.singleton_append]
    have closed : Stops 1 (']' :: rest) := stops_closing (.inr (.inl rfl))
    obtain ⟨t, whole, same⟩ := onKey.whole closed (by simp)
    have read := gives_whole whole
    rw [same] at read
    exact read.map fun parsed => (Term.mk (.member base parsed.1 true), parsed.2)

theorem ReadsBack.call {callee : Term} {ts : List Term} (onCallee : ReadsBack numbers callee)
    (each : ∀ t ∈ ts, ReadsBack numbers t) : ReadsBack numbers (.mk (.call callee ts)) := by
  refine .of_continuation onCallee Term.chars_call (show 16 ≤ 17 by decide) (fun bare => ?_)
    (fun rest _ => ?_)
    (fun rest isEnd => ?_)
  · simp only [Bool.or_eq_false_iff, decide_eq_false_iff_not, Nat.not_lt] at bare
    exact ⟨bare.2.trans callee.precedence_le_power, Nat.le_trans (show 16 ≤ 17 by decide) bare.2⟩
  · exact ⟨rfl, 17, rfl, Nat.le_refl 17⟩
  · rw [List.cons_append, List.append_assoc, List.singleton_append]
    exact (gives_itemChars each (.inl rfl)).map
      fun parsed => (Term.mk (.call callee parsed.1), parsed.2)

theorem ReadsBack.new {callee : Term} {ts : List Term} (onCallee : ReadsBack numbers callee)
    (each : ∀ t ∈ ts, ReadsBack numbers t) : ReadsBack numbers (.mk (.new callee ts)) := by
  have isWord : IsWord "new" := ⟨⟨'n', _, rfl, by decide⟩, by decide, by decide⟩
  have isEnd {cs : List Char} : ends (' ' :: cs) = true := by cases cs <;> rfl
  refine .of_atom (Term.chars_new ▸ isWord.begins.append) (show 1 ≤ 17 by decide) (fun rest _ => ?_)
    (fun rest _ => ?_)
  · rw [Term.chars_new, List.append_assoc, List.cons_append]
    exact isWord.readPrefix?_eq_none isEnd
  · -- The arguments do not continue the callee, so they are left for `new`.
    have remaining {cs : List Char} : Stops Term.primaryPrecedence ('(' :: cs) :=
      ⟨rfl, fun power continues => Option.some.inj continues ▸ Nat.le_refl 18⟩
    have operand : Reads numbers (.operand Term.primaryPrecedence)
        (callee.placed (!callee.isMemberChain) ++ '(' :: (Term.itemChars ts ++ ')' :: rest))
        (callee, '(' :: (Term.itemChars ts ++ ')' :: rest)) := by
      refine onCallee.placed (fun bare => ?_) remaining.reads
      have chain : callee.isMemberChain = true := by simpa using bare
      have tight := Term.le_precedence_of_isMemberChain chain
      rw [Term.power, if_pos chain,
        Term.limit_of_tight (Nat.le_trans (show 16 ≤ 17 by decide) tight)]
      exact ⟨show 1 ≤ 18 by decide, Nat.le_refl 18, stops_of_ends rfl⟩
    have onList : Gives numbers (readList? · ')' (Term.itemChars ts ++ ')' :: rest)) (ts, rest) :=
      gives_itemChars each (.inl rfl)
    obtain ⟨read, after⟩ := word_append isWord.all
      (isEnd : ends
        (' ' :: (callee.placed (!callee.isMemberChain) ++
          '(' :: (Term.itemChars ts ++ ')' :: rest))) = true)
    rw [Term.chars_new, List.append_assoc, List.cons_append, List.append_assoc, List.cons_append,
      List.append_assoc,
      List.singleton_append]
    filter_upwards [operand, onList] with limit operand onList
    rw [isWord.readAtom?_eq, readWord?, if_pos read, after]
    simp [operand, onList]

theorem ReadsBack.of_lead {argument : Term} {lead : List Char} (build : Term → Term)
    (onArgument : ReadsBack numbers argument)
    (chars : e.chars = lead ++ argument.placed wrap)
    (begins : Begins (fun c => e.sign? = some c) lead)
    (isPrefix : ∀ rest, readPrefix? (e.chars ++ rest) = some (build, argument.placed wrap ++ rest))
    (same : build argument = e) (precedence : e.precedence = Term.unaryPrecedence)
    (limit : e.limit = Term.unaryPrecedence)
    (fits : wrap = false → Term.unaryPrecedence ≤ argument.precedence) :
    ReadsBack numbers e := by
  refine .of_operand ?_ (precedence ▸ show 1 ≤ 15 by decide)
    fun {least rest answer} positive le stops continued => ?_
  · rw [chars]
    exact begins.append.mono fun c signed _ => signed
  · rw [limit] at stops
    have operand := onArgument.reads_last (show 1 ≤ 15 by decide) (by decide) fits stops
    exact reads_prefix (isPrefix rest) operand (same ▸ continued)

theorem ReadsBack.of_operator {left : Term} {tail : List Char} (i : Infix)
    (onLeft : ReadsBack numbers left)
    (chars : e.chars = left.placed wrap ++ ' ' :: (i.spelling.toList ++ ' ' :: tail))
    (power : e.power = i.precedence) (precedence : e.precedence = i.precedence)
    (limit : e.limit = i.lastPrecedence)
    (fits : wrap = false → i.precedence ≤ left.precedence ∧ i.precedence < left.limit)
    (step : ∀ rest, Stops i.lastPrecedence rest → Gives numbers (readInfix? · left i (tail ++ rest))
      (e, rest)) :
    ReadsBack numbers e := by
  have above : 1 ≤ i.precedence ∧ i.precedence < 15 := ⟨i.precedence_pos, i.precedence_lt⟩
  refine .of_operand ?_ (precedence ▸ above.1)
    fun {least rest answer} positive le stops continued => ?_
  · rw [chars, precedence]
    exact (onLeft.begins.placed.mono fun c _ tight =>
      absurd tight (Nat.not_le_of_lt above.2)).append
  · rw [power] at le
    rw [limit] at stops
    rw [chars, List.append_assoc, List.cons_append, List.append_assoc, List.cons_append]
    apply onLeft.placed
    · intro bare
      obtain ⟨holds, low⟩ := fits bare
      exact ⟨positive, (le.trans holds).trans left.precedence_le_power, stops_operator low⟩
    · have made := step rest stops
      refine reads_rest (continuation?_operator i _) le ?_ continued
      filter_upwards [made] with limit made
      simp only [readContinuation?, takeWhile_spelling, String.ofList_toList,
        Infix.ofSpelling?_spelling, Option.bind_eq_bind, Option.bind_some, expect_self]
      exact made

theorem ReadsBack.update_leading (operator : UpdateOp) {argument : Term}
    (onArgument : ReadsBack numbers argument) :
    ReadsBack numbers (.mk (.update operator true argument)) := by
  refine .of_lead (fun t => .mk (.update operator true t)) onArgument Term.chars_update ?_
    (fun rest => ?_) rfl rfl rfl (by simp)
  · cases operator
    · exact ⟨'+', _, rfl, rfl, fun _ => rfl⟩
    · exact ⟨'-', _, rfl, rfl, fun _ => rfl⟩
  · rw [Term.chars_update]
    cases operator <;> rfl

theorem skipSpace_of_ne (different : cs.head? ≠ some ' ') : skipSpace cs = cs := by
  unfold skipSpace
  split
  · exact absurd rfl different
  · rfl

theorem readPrefix?_minus (different : c ≠ '-') (noSpace : c ≠ ' ') :
    readPrefix? ('-' :: c :: cs) = some (fun t => .mk (.unary .minus t), c :: cs) := by
  have same : skipSpace (c :: cs) = c :: cs := skipSpace_of_ne (by simpa using noSpace)
  simp [readPrefix?, different, same]

theorem readPrefix?_plus (different : c ≠ '+') (noSpace : c ≠ ' ') :
    readPrefix? ('+' :: c :: cs) = some (fun t => .mk (.unary .plus t), c :: cs) := by
  have same : skipSpace (c :: cs) = c :: cs := skipSpace_of_ne (by simpa using noSpace)
  simp [readPrefix?, different, same]

theorem readPrefix?_keyword {operator : UnaryOp} (isKeyword : operator.isKeyword = true) :
    readPrefix? (operator.spelling.toList ++ ' ' :: cs) =
      some (fun t => .mk (.unary operator t), cs) := by
  cases operator with
  | typeOf => rfl
  | void => rfl
  | delete => rfl
  | _ => cases isKeyword

theorem ReadsBack.unary (operator : UnaryOp) {argument : Term}
    (onArgument : ReadsBack numbers argument) :
    ReadsBack numbers (.mk (.unary operator argument)) := by
  refine .of_lead (fun t => .mk (.unary operator t)) onArgument Term.chars_unary ?_ (fun rest => ?_)
    rfl rfl rfl le_of_bare
  · cases operator
    · exact ⟨'-', _, rfl, rfl, fun _ => rfl⟩
    · exact ⟨'+', _, rfl, rfl, fun _ => rfl⟩
    · exact ⟨'!', _, rfl, rfl, fun isSign => absurd isSign (by decide)⟩
    · exact ⟨'~', _, rfl, rfl, fun isSign => absurd isSign (by decide)⟩
    · exact ⟨'t', _, rfl, rfl, fun isSign => absurd isSign (by decide)⟩
    · exact ⟨'v', _, rfl, rfl, fun isSign => absurd isSign (by decide)⟩
    · exact ⟨'d', _, rfl, rfl, fun isSign => absurd isSign (by decide)⟩
  · have begins : Begins _ (argument.placed (argument.precedence < Term.unaryPrecedence)) :=
      onArgument.begins.placed
    obtain ⟨c, after, spelled, opening, sign⟩ := begins
    have noSpace : c ≠ ' ' := by
      rintro rfl
      cases opening
    have signed (isSign : c ∈ ['+', '-']) : argument.sign? = some c :=
      (sign isSign).2 (le_of_bare (sign isSign).1)
    rw [Term.chars_unary, List.append_assoc, List.append_assoc, spelled]
    cases operator with
    | minus =>
      by_cases space : Term.needsSpace .minus argument
      · rw [if_pos space]
        rfl
      · have different : c ≠ '-' := by
          rintro rfl
          exact space (Term.needsSpace_minus (signed (by decide)))
        rw [if_neg space]
        exact readPrefix?_minus different noSpace
    | plus =>
      by_cases space : Term.needsSpace .plus argument
      · rw [if_pos space]
        rfl
      · have different : c ≠ '+' := by
          rintro rfl
          exact space (Term.needsSpace_plus (signed (by decide)))
        rw [if_neg space]
        exact readPrefix?_plus different noSpace
    | not => rfl
    | bitNot => rfl
    | typeOf => exact readPrefix?_keyword rfl
    | void => exact readPrefix?_keyword rfl
    | delete => exact readPrefix?_keyword rfl

theorem Infix.lastPrecedence_pos (i : Infix) :
    1 ≤ i.lastPrecedence ∧ i.lastPrecedence ≠ Term.conditionalPrecedence := by
  cases i with
  | binary operator => cases operator <;> decide
  | logical operator => cases operator <;> decide
  | assignment operator => exact show 1 ≤ 1 ∧ 1 ≠ 2 by decide
  | choice => decide

theorem ReadsBack.reads_right (i : Infix) (onRight : ReadsBack numbers right)
    (stops : Stops i.lastPrecedence rest)
    (fits : wrap = false → i.lastPrecedence ≤ right.precedence) :
    Reads numbers (.operand i.lastPrecedence) (right.placed wrap ++ rest) (right, rest) :=
  onRight.reads_last i.lastPrecedence_pos.1 i.lastPrecedence_pos.2 fits stops

theorem ReadsBack.binary (operator : BinaryOp) (onLeft : ReadsBack numbers left)
    (onRight : ReadsBack numbers right) :
    ReadsBack numbers (.mk (.binary operator left right)) := by
  refine .of_operator (.binary operator) onLeft Term.chars_binary rfl rfl rfl (fun bare => ?_)
    (fun rest stops => ?_)
  · have tight := le_of_bare bare
    by_cases isExp : operator = .exp
    · subst isExp
      exact ⟨Nat.le_of_succ_le tight, Term.le_limit tight (by decide)⟩
    · rw [if_neg isExp] at tight
      have between : Term.conditionalPrecedence < operator.precedence ∧
          operator.precedence < BinaryOp.exp.precedence := by
        revert isExp
        cases operator <;> decide
      exact ⟨tight, Term.lt_limit tight between.1 between.2⟩
  · have read := onRight.reads_right (.binary operator) stops le_of_bare
    filter_upwards [read] with limit read
    simp only [readInfix?, read, Option.bind_eq_bind, Option.bind_some]

theorem ReadsBack.logical (operator : LogicalOp) (onLeft : ReadsBack numbers left)
    (onRight : ReadsBack numbers right) :
    ReadsBack numbers (.mk (.logical operator left right)) := by
  refine .of_operator (.logical operator) onLeft Term.chars_logical rfl rfl rfl (fun bare => ?_)
    (fun rest stops => ?_)
  · have tight := le_of_bare (Bool.or_eq_false_iff.mp bare).2
    have between : Term.conditionalPrecedence < operator.precedence ∧
        operator.precedence < BinaryOp.exp.precedence := by cases operator <;> decide
    exact ⟨tight, Term.lt_limit tight between.1 between.2⟩
  · have fits (bare : (Term.mixesNullish operator right ||
        right.precedence < operator.precedence + 1) = false) :
        (Infix.logical operator).lastPrecedence ≤ right.precedence :=
      le_of_bare (Bool.or_eq_false_iff.mp bare).2
    have read := onRight.reads_right (.logical operator) stops fits
    filter_upwards [read] with limit read
    simp only [readInfix?, read, Option.bind_eq_bind, Option.bind_some]

theorem ReadsBack.assignment (operator : AssignOp) (onLeft : ReadsBack numbers left)
    (onRight : ReadsBack numbers right) :
    ReadsBack numbers (.mk (.assignment operator left right)) := by
  refine .of_operator (.assignment operator) onLeft Term.chars_assignment rfl rfl rfl
    (fun bare => ?_) (fun rest stops => ?_)
  · have tight := le_of_bare bare
    rw [Term.limit_of_tight (Nat.le_trans (show 16 ≤ 17 by decide) tight)]
    exact ⟨Nat.le_trans (show 1 ≤ 17 by decide) tight, show 1 < 19 by decide⟩
  · have read := onRight.reads_item stops
    filter_upwards [read] with limit read
    simp only [readInfix?, Infix.lastPrecedence, read, Option.bind_eq_bind, Option.bind_some]

theorem ReadsBack.conditional {test : Term} (onTest : ReadsBack numbers test)
    (onLeft : ReadsBack numbers left)
    (onRight : ReadsBack numbers right) :
    ReadsBack numbers (.mk (.conditional test left right)) := by
  refine .of_operator .choice onTest Term.chars_conditional rfl rfl rfl (fun bare => ?_)
    (fun rest stops => ?_)
  · have tight := le_of_bare bare
    exact ⟨Nat.le_of_succ_le tight, Term.le_limit tight (by decide)⟩
  · rw [List.append_assoc, List.cons_append, List.cons_append, List.cons_append]
    have colon : Stops 1 (' ' :: ':' :: ' ' ::
      (right.placed (right.precedence < Term.assignmentPrecedence) ++ rest)) := stops_colon
    have readLeft := onLeft.reads_item colon
    have readRight := onRight.reads_item stops
    filter_upwards [readLeft, readRight] with limit readLeft readRight
    simp only [readInfix?, Infix.lastPrecedence, readLeft, readRight, Option.bind_eq_bind,
      Option.bind_some, expect_self]

theorem ReadsBack.sequence {ts : List Term} (several : 2 ≤ ts.length)
    (each : ∀ t ∈ ts, ReadsBack numbers t) :
    ReadsBack numbers (.mk (.sequence ts)) := by
  have nonempty : ts ≠ [] := by
    rintro rfl
    cases several
  refine ⟨?_, fun {least rest answer} positive le => ?_, fun {rest} stops noComma => ?_⟩
  · rw [Term.chars_sequence]
    exact (begins_itemChars nonempty each).mono fun c _ tight =>
      absurd tight (show ¬15 ≤ 0 by decide)
  · exact absurd (positive.trans le) (show ¬1 ≤ 0 by decide)
  · rw [Term.chars_sequence]
    refine ⟨_, reads_itemChars nonempty each stops noComma, ?_⟩
    match ts with
    | _ :: _ :: _ => rfl

theorem readsBack_of_isExpression (numerals : Numerals numbers)
    (expression : IsExpression numbers e) :
    ReadsBack numbers e := by
  induction expression with
  | identifier valid => exact .identifier valid
  | this_ => exact .this_
  | string value => exact .string value
  | number known => exact .number numerals known
  | boolean b => exact .boolean b
  | null => exact .null
  | array each onEach => exact .array onEach
  | object keys plain values onKeys onValues =>
    exact .object fun e isEntry rest stops =>
      gives_entry numerals (keys e isEntry) (plain e isEntry) (onKeys e isEntry)
        (onValues e isEntry) stops
  | property _ valid onBase => exact onBase.property valid
  | element _ _ onBase onKey => exact onBase.element onKey
  | call _ _ onCallee onEach => exact onCallee.call onEach
  | new _ _ onCallee onEach => exact onCallee.new onEach
  | unary operator _ onArgument => exact onArgument.unary operator
  | update operator leading _ target onArgument =>
    cases leading
    · exact onArgument.update_trailing operator target
    · exact onArgument.update_leading operator
  | binary operator _ _ onLeft onRight => exact onLeft.binary operator onRight
  | logical operator _ _ onLeft onRight => exact onLeft.logical operator onRight
  | assignment operator _ _ _ onLeft onRight => exact onLeft.assignment operator onRight
  | conditional _ _ _ onTest onLeft onRight => exact onTest.conditional onLeft onRight
  | sequence several _ onEach => exact .sequence several onEach

theorem IsExpression.source_eq (expression : IsExpression numbers e) : e.source = e.text 0 := by
  cases expression <;> rfl

end Source

namespace Source

variable {numbers : List Float} {s t : Term}

/-- The text of an expression leaves no doubt about the expression. -/
theorem agrees_of_source_eq (numerals : Numerals numbers) (first : IsExpression numbers s)
    (second : IsExpression numbers t) (same : s.source = t.source) : s.agrees t = true := by
  have chars : s.chars = t.chars := by
    rw [Term.chars, Term.chars, ← first.source_eq, ← second.source_eq, same]
  obtain ⟨u, read, collects⟩ := (readsBack_of_isExpression numerals first).whole stops_nil (by simp)
  obtain ⟨v, readAgain, collectsAgain⟩ :=
    (readsBack_of_isExpression numerals second).whole stops_nil (by simp)
  rw [chars] at read
  have sameRead := congrArg Prod.fst (read.unique readAgain)
  have equal : s = t :=
    collects.symm.trans ((congrArg (fun w => collected (listed w)) sameRead).trans collectsAgain)
  rw [equal]
  exact t.agrees_self

theorem exists_agrees_of_source_eq : ∃ t : Term, Numerals [0, 1.5] ∧ IsExpression [0, 1.5] t ∧
    t.source = "(0).a - -b" ∧ t.agrees t = true := by
  have numerals : Numerals [0, 1.5] := by
    have different : Decimal.text 0 ≠ Decimal.text 1.5 := by decide +kernel
    refine ⟨by decide +kernel, by decide +kernel, ?_⟩
    simp [different, different.symm]
  have expression : IsExpression [0, 1.5] (.mk (.binary .sub
      (.mk (.member (.mk (.literal (.number 0))) (.identifier "a") false))
      (.mk (.unary .minus (.identifier "b"))))) :=
    .binary .sub (.property (.number (by simp)) (by decide))
      (.unary .minus (.identifier (by decide)))
  exact ⟨_, numerals, expression, by decide +kernel, agrees_of_source_eq numerals expression
    expression rfl⟩

end Source

end Unravel
