import Mathlib.Tactic.Common
import Unravel.Eval.Method
import Unravel.Text.Units

/-!
What searches for a text in another one find: the first occurrence from a position on
(`Text.firstFrom_find?`), and the last one up to a position (`Text.lastUpTo_findLast?`). There is at
most one such position, so every other way to search that has this property finds the same.

Searches that stop at a fault. They index and cut a text with checks (`Checked.item`,
`Checked.slice`, `Checked.minus`), go over the positions of the text one by one, and cut it at a
cursor that must move and stay in the text. From a position in the text, they meet no fault and find
what the searches without checks find (`Checked.search_eq`, `Checked.searchBack_eq`,
`Checked.pieces_eq`).
-/

namespace Unravel.Text

/-- The least position from `start` on that has a property, if there is one. -/
def FirstFrom (holds : Nat → Prop) (start : Nat) : Option Nat → Prop
  | some i => start ≤ i ∧ holds i ∧ ∀ j, start ≤ j → j < i → ¬holds j
  | none => ∀ j, start ≤ j → ¬holds j

def LastUpTo (holds : Nat → Prop) (limit : Nat) : Option Nat → Prop
  | some i => i ≤ limit ∧ holds i ∧ ∀ j, i < j → j ≤ limit → ¬holds j
  | none => ∀ j, j ≤ limit → ¬holds j

variable {holds : Nat → Prop} {start limit : Nat} {found other : Option Nat}

theorem FirstFrom.unique (first : FirstFrom holds start found)
    (second : FirstFrom holds start other) :
    found = other := by
  cases found with
  | none =>
    cases other with
    | none => rfl
    | some j => exact absurd second.2.1 (first j second.1)
  | some i =>
    cases other with
    | none => exact absurd first.2.1 (second i first.1)
    | some j =>
      have notLess : ¬i < j := fun less => second.2.2 i first.1 less first.2.1
      have notGreater : ¬j < i := fun less => first.2.2 j second.1 less second.2.1
      rw [Option.some.injEq]
      omega

theorem LastUpTo.unique (first : LastUpTo holds limit found) (second : LastUpTo holds limit other) :
    found = other := by
  cases found with
  | none =>
    cases other with
    | none => rfl
    | some j => exact absurd second.2.1 (first j second.1)
  | some i =>
    cases other with
    | none => exact absurd first.2.1 (second i first.1)
    | some j =>
      have notLess : ¬i < j := fun less => first.2.2 j less second.1 second.2.1
      have notGreater : ¬j < i := fun less => second.2.2 i less first.1 first.2.1
      rw [Option.some.injEq]
      omega

/-- A search that starts at a position without the property goes on behind it. -/
theorem FirstFrom.of_succ (fails : ¬holds start) (later : FirstFrom holds (start + 1) found) :
    FirstFrom holds start found := by
  have next {j : Nat} (from_ : start ≤ j) (isHeld : holds j) : start + 1 ≤ j := by
    have : j ≠ start := by
      rintro rfl
      exact fails isHeld
    omega
  cases found with
  | none => exact fun j from_ isHeld => later j (next from_ isHeld) isHeld
  | some i =>
    refine ⟨Nat.le_of_succ_le later.1, later.2.1, fun j from_ less isHeld => ?_⟩
    exact later.2.2 j (next from_ isHeld) less isHeld

theorem FirstFrom.here (isHeld : holds start) : FirstFrom holds start (some start) :=
  ⟨Nat.le_refl _, isHeld, fun _ from_ less => absurd from_ (Nat.not_le_of_lt less)⟩

theorem LastUpTo.here (isHeld : holds limit) : LastUpTo holds limit (some limit) :=
  ⟨Nat.le_refl _, isHeld, fun _ behind upTo => absurd upTo (Nat.not_le_of_lt behind)⟩

/-- A search back goes on in front of positions without the property. -/
theorem LastUpTo.extend {limit' : Nat} (last : LastUpTo holds limit found) (less : limit ≤ limit')
    (fails : ∀ j, limit < j → j ≤ limit' → ¬holds j) : LastUpTo holds limit' found := by
  cases found with
  | none =>
    intro j upTo isHeld
    rcases Nat.lt_or_ge limit j with behind | within
    · exact fails j behind upTo isHeld
    · exact last j within isHeld
  | some i =>
    refine ⟨Nat.le_trans last.1 less, last.2.1, fun j behind upTo isHeld => ?_⟩
    rcases Nat.lt_or_ge limit j with beyond | within
    · exact fails j beyond upTo isHeld
    · exact last.2.2 j behind within isHeld

theorem FirstFrom.isSome_iff (first : FirstFrom holds start found) :
    found.isSome = true ↔ ∃ i, start ≤ i ∧ holds i := by
  cases found with
  | none => exact iff_of_false nofun fun ⟨i, from_, isHeld⟩ => first i from_ isHeld
  | some i => exact iff_of_true rfl ⟨i, first.1, first.2.1⟩

theorem FirstFrom.from_iff (first : FirstFrom holds 0 found) :
    FirstFrom holds start found ↔ ∀ i < start, ¬holds i := by
  cases found with
  | none =>
    exact iff_of_true (fun j _ => first j (Nat.zero_le j)) fun i _ => first i (Nat.zero_le i)
  | some i =>
    constructor
    · intro later j less isHeld
      exact first.2.2 j (Nat.zero_le j) (Nat.lt_of_lt_of_le less later.1) isHeld
    · intro before
      refine ⟨?_, first.2.1, fun j _ => first.2.2 j (Nat.zero_le j)⟩
      exact Nat.le_of_not_lt fun less => before i less first.2.1

section Occurrences

variable {α : Type} {text needle rest : List α}

/-- A text occurs in another one at a position. -/
def OccursAt (text needle : List α) (i : Nat) : Prop := i ≤ text.length ∧ needle <+: text.drop i

theorem occursAt_iff {i : Nat} : OccursAt text needle i ↔
    i + needle.length ≤ text.length ∧ (text.drop i).take needle.length = needle := by
  rw [OccursAt, List.prefix_iff_eq_take]
  constructor
  · rintro ⟨within, same⟩
    have length := congrArg List.length same
    rw [List.length_take, List.length_drop] at length
    exact ⟨by omega, same.symm⟩
  · rintro ⟨within, same⟩
    exact ⟨by omega, same.symm⟩

theorem drop_eq_cons {x : α} (shape : text.drop start = x :: rest) :
    start < text.length ∧ text.drop (start + 1) = rest := by
  have length := congrArg List.length shape
  rw [List.length_drop, List.length_cons] at length
  refine ⟨by omega, ?_⟩
  rw [← List.drop_drop, shape]
  rfl

variable [BEq α] [LawfulBEq α]

theorem firstFrom_findFrom? (within : start ≤ text.length) (shape : text.drop start = rest) :
    FirstFrom (OccursAt text needle) start (findFrom? needle start rest) := by
  induction rest generalizing start with
  | nil =>
    have atEnd := List.drop_eq_nil_iff.mp shape
    rw [findFrom?]
    split
    · rename_i isEmpty
      rw [List.isEmpty_iff] at isEmpty
      exact .here ⟨within, by simp [isEmpty]⟩
    · rename_i nonempty
      rintro j from_ ⟨inside, isPrefix⟩
      rw [List.drop_eq_nil_iff.mpr (by omega), List.prefix_nil] at isPrefix
      exact nonempty (List.isEmpty_iff.mpr isPrefix)
  | cons x rest induction =>
    obtain ⟨inside, next⟩ := drop_eq_cons shape
    rw [findFrom?]
    split
    · rename_i isPrefix
      rw [List.isPrefixOf_iff_prefix] at isPrefix
      exact .here ⟨within, shape ▸ isPrefix⟩
    · rename_i notPrefix
      rw [List.isPrefixOf_iff_prefix] at notPrefix
      exact .of_succ (fun occurs => notPrefix (shape ▸ occurs.2)) (induction inside next)

theorem firstFrom_find? (within : start ≤ text.length) :
    FirstFrom (OccursAt text needle) start (find? text needle start) :=
  firstFrom_findFrom? within rfl

theorem lastUpTo_findLastFrom? (within : start ≤ text.length) (shape : text.drop start = rest) :
    LastUpTo (fun i => start ≤ i ∧ OccursAt text needle i) limit
      (findLastFrom? needle limit start rest) := by
  induction rest generalizing start with
  | nil =>
    have atEnd := List.drop_eq_nil_iff.mp shape
    rw [findLastFrom?]
    split
    · rename_i both
      rw [Bool.and_eq_true, List.isEmpty_iff, decide_eq_true_eq] at both
      refine ⟨both.2, ⟨Nat.le_refl _, within, by simp [both.1]⟩, ?_⟩
      rintro j less - ⟨-, inside, -⟩
      omega
    · rename_i fails
      rintro j upTo ⟨from_, inside, isPrefix⟩
      obtain rfl : j = start := by omega
      rw [shape, List.prefix_nil] at isPrefix
      simp [isPrefix, upTo] at fails
  | cons x rest induction =>
    obtain ⟨inside, next⟩ := drop_eq_cons shape
    rw [findLastFrom?]
    split
    · rename_i beyond
      rintro j upTo ⟨from_, -⟩
      omega
    · rename_i upTo
      have later := induction inside next
      split
      · rename_i i isFound
        rw [isFound] at later
        refine ⟨later.1, ⟨Nat.le_of_succ_le later.2.1.1, later.2.1.2⟩, ?_⟩
        rintro j less within ⟨-, occurs⟩
        exact later.2.2 j less within ⟨by have := later.2.1.1; omega, occurs⟩
      · rename_i isNone
        rw [isNone] at later
        have behind {j : Nat} (less : start < j) (within : j ≤ limit) : ¬OccursAt text needle j :=
          fun occurs => later j within ⟨less, occurs⟩
        split
        · rename_i isPrefix
          rw [List.isPrefixOf_iff_prefix] at isPrefix
          exact ⟨Nat.le_of_not_lt upTo, ⟨Nat.le_refl _, within, shape ▸ isPrefix⟩,
            fun j less within held => behind less within held.2⟩
        · rename_i notPrefix
          rw [List.isPrefixOf_iff_prefix] at notPrefix
          rintro j within ⟨from_, occurs⟩
          rcases Nat.eq_or_lt_of_le from_ with rfl | less
          · exact notPrefix (shape ▸ occurs.2)
          · exact behind less within occurs

theorem lastUpTo_findLast? :
    LastUpTo (OccursAt text needle) limit (findLast? text needle limit) := by
  have last : LastUpTo (fun i => 0 ≤ i ∧ OccursAt text needle i) limit
      (findLast? text needle limit) :=
    lastUpTo_findLastFrom? (Nat.zero_le text.length) rfl
  simp only [Nat.zero_le, true_and] at last
  exact last

end Occurrences

end Unravel.Text

/-! ### Searches that stop at a fault -/

namespace Unravel

/-- What a program that indexes a text must not do. -/
inductive Fault where
  /-- An index that is not below the length. -/
  | index
  /-- A part that ends before it starts, or behind the end. -/
  | slice
  /-- A difference below zero. -/
  | underflow
  /-- A cursor that stays where it is or leaves the text. -/
  | cursor
deriving DecidableEq, Repr

namespace Checked

open Text Method

variable {α β : Type}

def item (xs : List α) (i : Nat) : Except Fault α :=
  match xs[i]? with
  | some x => .ok x
  | none => .error .index

def slice (xs : List α) (start stop : Nat) : Except Fault (List α) :=
  if start ≤ stop ∧ stop ≤ xs.length then .ok (between xs start stop) else .error .slice

def minus (a b : Nat) : Except Fault Nat := if b ≤ a then .ok (a - b) else .error .underflow

def scan [BEq α] (text needle : List α) (i : Nat) : Nat → Except Fault (Option Nat)
  | 0 => .ok none
  | count + 1 => do
    let tail ← slice text i text.length
    if needle.isPrefixOf tail then return some i else scan text needle (i + 1) count

/-- Where `needle` first occurs at or after a position. -/
def search [BEq α] (text needle : List α) (start : Nat) : Except Fault (Option Nat) :=
  if needle.isEmpty then .ok (some (min start text.length))
  else if text.length < needle.length then .ok none
  else do
    let last ← minus text.length needle.length
    scan text needle start (last + 1 - start)

def scanBack [BEq α] (text needle : List α) : Nat → Except Fault (Option Nat)
  | 0 => .ok none
  | i + 1 => do
    let tail ← slice text i text.length
    if needle.isPrefixOf tail then return some i else scanBack text needle i

def searchBack [BEq α] (text needle : List α) (limit : Nat) : Except Fault (Option Nat) :=
  if text.length < needle.length then .ok none
  else do
    let last ← minus text.length needle.length
    scanBack text needle (min last limit + 1)

/-- The parts of a text from a cursor on, between the occurrences of a separator, read one by one
and put behind those in `parts`. -/
def pieces [BEq α] (read : List α → Option β) (text separator : List α) (cursor : Nat)
    (parts : List β) :
    Except Fault (Option (List β)) := do
  match ← search text separator cursor with
  | some found =>
    match read (← slice text cursor found) with
    | some part =>
      let next := found + separator.length
      if cursor < next ∧ next ≤ text.length then pieces read text separator next (parts ++ [part])
      else .error .cursor
    | none => return none
  | none => return (read (← slice text cursor text.length)).map fun part => parts ++ [part]
termination_by text.length - cursor

variable {xs text needle separator rest part : List α} {i start stop limit count cursor : Nat}

theorem slice_eq (ordered : start ≤ stop) (within : stop ≤ xs.length) :
    slice xs start stop = .ok (between xs start stop) := if_pos ⟨ordered, within⟩

example : slice [true, false] 1 3 = .error .slice := rfl

theorem slice_tail (within : start ≤ text.length) :
    slice text start text.length = .ok (text.drop start) := by
  rw [slice_eq within (Nat.le_refl _), between, List.take_length]

theorem minus_eq {a b : Nat} (ordered : b ≤ a) : minus a b = .ok (a - b) := if_pos ordered

theorem item_eq (within : i < xs.length) : item xs i = .ok xs[i] := by
  rw [item, List.getElem?_eq_getElem within]

variable [BEq α] [LawfulBEq α]

theorem exists_scan {last : Nat} (fits : last + needle.length = text.length)
    (isCount : count = last + 1 - start) :
    ∃ found, scan text needle start count = .ok found ∧
      FirstFrom (OccursAt text needle) start found := by
  induction count generalizing start with
  | zero =>
    refine ⟨none, rfl, fun j from_ occurs => ?_⟩
    have inside := (occursAt_iff.mp occurs).1
    omega
  | succ count induction =>
    have within : start ≤ text.length := by omega
    rw [scan, slice_tail within]
    change ∃ found, (if needle.isPrefixOf (text.drop start) then _ else _) = Except.ok found ∧ _
    split
    · rename_i isPrefix
      exact ⟨some start, rfl, .here ⟨within, List.isPrefixOf_iff_prefix.mp isPrefix⟩⟩
    · rename_i notPrefix
      obtain ⟨found, isFound, first⟩ : ∃ found, scan text needle (start + 1) count = .ok found ∧
        FirstFrom (OccursAt text needle) (start + 1) found := induction (by omega)
      exact ⟨found, isFound,
        first.of_succ fun occurs => notPrefix (List.isPrefixOf_iff_prefix.mpr occurs.2)⟩

theorem search_eq (within : start ≤ text.length) :
    search text needle start = .ok (find? text needle start) := by
  have first : FirstFrom (OccursAt text needle) start (find? text needle start) :=
    firstFrom_find? within
  have ofFirst {found : Option Nat} (other : FirstFrom (OccursAt text needle) start found) :
      Except.ok found = (.ok (find? text needle start) : Except Fault (Option Nat)) :=
    congrArg Except.ok (other.unique first)
  rw [search]
  split
  · rename_i isEmpty
    rw [Nat.min_eq_left within]
    exact ofFirst (.here ⟨within, by rw [List.isEmpty_iff.mp isEmpty]; exact List.nil_prefix⟩)
  · split
    · refine ofFirst fun j from_ occurs => ?_
      have inside := (occursAt_iff.mp occurs).1
      omega
    · rename_i fits
      rw [minus_eq (Nat.le_of_not_lt fits)]
      have fits : text.length - needle.length + needle.length = text.length := by omega
      obtain ⟨found, isFound, other⟩ := exists_scan fits rfl
      exact isFound.trans (ofFirst other)

theorem exists_scanBack (within : limit ≤ text.length) :
    ∃ found, scanBack text needle (limit + 1) = .ok found ∧
      LastUpTo (OccursAt text needle) limit found := by
  induction limit with
  | zero =>
    rw [scanBack, slice_tail within]
    change ∃ found, (if needle.isPrefixOf (text.drop 0) then _ else _) = Except.ok found ∧ _
    split
    · rename_i isPrefix
      exact ⟨some 0, rfl, .here ⟨within, List.isPrefixOf_iff_prefix.mp isPrefix⟩⟩
    · rename_i notPrefix
      refine ⟨none, rfl, fun j upTo occurs => notPrefix (List.isPrefixOf_iff_prefix.mpr ?_)⟩
      rw [← Nat.le_zero.mp upTo]
      exact occurs.2
  | succ limit induction =>
    rw [scanBack, slice_tail within]
    change ∃ found, (if needle.isPrefixOf (text.drop (limit + 1)) then _ else _) = Except.ok found ∧
      _
    split
    · rename_i isPrefix
      exact ⟨some (limit + 1), rfl, .here ⟨within, List.isPrefixOf_iff_prefix.mp isPrefix⟩⟩
    · rename_i notPrefix
      obtain ⟨found, isFound, last⟩ := induction (Nat.le_of_succ_le within)
      refine ⟨found, isFound, last.extend (Nat.le_succ limit) fun j behind upTo occurs => ?_⟩
      obtain rfl : j = limit + 1 := by omega
      exact notPrefix (List.isPrefixOf_iff_prefix.mpr occurs.2)

theorem searchBack_eq : searchBack text needle limit = .ok (findLast? text needle limit) := by
  have last : LastUpTo (OccursAt text needle) limit (findLast? text needle limit) :=
    lastUpTo_findLast?
  rw [searchBack]
  split
  · refine congrArg Except.ok (LastUpTo.unique (fun j upTo occurs => ?_) last)
    have inside := (occursAt_iff.mp occurs).1
    omega
  · rename_i fits
    rw [minus_eq (Nat.le_of_not_lt fits)]
    obtain ⟨found, isFound, other⟩ : ∃ found,
        scanBack text needle (min (text.length - needle.length) limit + 1) = .ok found ∧
          LastUpTo (OccursAt text needle) (min (text.length - needle.length) limit) found :=
      exists_scanBack (by omega)
    refine isFound.trans (congrArg Except.ok (LastUpTo.unique (other.extend (by omega) ?_) last))
    intro j beyond upTo occurs
    have inside := (occursAt_iff.mp occurs).1
    omega

section Parts

variable {separator rest part text : List UInt16} {read : List UInt16 → Option β} {parts : List β}

theorem splitUnits_skip (separator part rest : List UInt16) (skip : Nat) :
    splitUnits separator part skip rest = splitUnits separator part 0 (rest.drop skip) := by
  induction skip generalizing rest with
  | zero => rfl
  | succ skip induction =>
    cases rest with
    | nil => rw [splitUnits, List.drop_nil, splitUnits]
    | cons u rest => rw [splitUnits, induction, List.drop_succ_cons]

theorem le_of_findFrom? {α : Type} [BEq α] {needle rest : List α} {start i : Nat}
    (found : findFrom? needle start rest = some i) : start ≤ i := by
  induction rest generalizing start with
  | nil =>
    rw [findFrom?, Option.ite_none_right_eq_some] at found
    exact Nat.le_of_eq (Option.some.inj found.2)
  | cons x rest induction =>
    rw [findFrom?] at found
    split at found
    · exact Nat.le_of_eq (Option.some.inj found)
    · exact Nat.le_of_succ_le (induction found)

theorem splitUnits_eq (nonempty : separator ≠ []) (part rest : List UInt16) (start : Nat) :
    splitUnits separator part 0 rest =
      match findFrom? separator start rest with
      | some i => (part.reverse ++ rest.take (i - start)) ::
          splitUnits separator [] 0 (rest.drop (i - start + separator.length))
      | none => [part.reverse ++ rest] := by
  induction rest generalizing part start with
  | nil =>
    rw [splitUnits, findFrom?, if_neg (by rwa [List.isEmpty_iff]), List.append_nil]
  | cons u rest induction =>
    rw [splitUnits, findFrom?]
    split
    · obtain ⟨length, size⟩ : ∃ length, separator.length = length + 1 :=
        ⟨separator.length - 1, by have := List.length_pos_iff.mpr nonempty; omega⟩
      dsimp only
      rw [splitUnits_skip, Nat.sub_self, List.take_zero, List.append_nil, Nat.zero_add, size,
        List.drop_succ_cons, Nat.add_sub_cancel]
    · rw [induction (u :: part) (start + 1)]
      split
      · rename_i i found
        have behind := le_of_findFrom? found
        obtain ⟨distance, rfl⟩ : ∃ distance, i = start + 1 + distance := ⟨i - (start + 1), by omega⟩
        have near : start + 1 + distance - (start + 1) = distance := by omega
        have far : start + 1 + distance - start = distance + 1 := by omega
        rw [near, far, List.take_succ_cons, Nat.add_right_comm, List.drop_succ_cons,
          List.reverse_cons, List.append_assoc, List.singleton_append]
      · rw [List.reverse_cons, List.append_assoc, List.singleton_append]

theorem splitUnits_drop (nonempty : separator ≠ []) (text : List UInt16) (cursor : Nat) :
    splitUnits separator [] 0 (text.drop cursor) =
      match find? text separator cursor with
      | some i =>
        between text cursor i :: splitUnits separator [] 0 (text.drop (i + separator.length))
      | none => [text.drop cursor] := by
  rw [splitUnits_eq nonempty [] (text.drop cursor) cursor, ← find?]
  split
  · rename_i i found
    have behind := le_of_findFrom? found
    have offset : cursor + (i - cursor + separator.length) = i + separator.length := by omega
    rw [List.reverse_nil, List.nil_append, between, List.drop_take, List.drop_drop, offset]
  · rw [List.reverse_nil, List.nil_append]

theorem pieces_of_none (within : cursor ≤ text.length)
    (found : find? text separator cursor = none) :
    pieces read text separator cursor parts =
      .ok ((read (text.drop cursor)).map fun part => parts ++ [part]) := by
  rw [pieces, search_eq within, found]
  change (do return (read (← slice text cursor text.length)).map fun part => parts ++ [part]) = _
  rw [slice_tail within]
  rfl

theorem pieces_of_some (nonempty : separator ≠ []) (within : cursor ≤ text.length)
    (found : find? text separator cursor = some i) :
    cursor < i + separator.length ∧ i + separator.length ≤ text.length ∧
      pieces read text separator cursor parts =
        match read (between text cursor i) with
        | some part => pieces read text separator (i + separator.length) (parts ++ [part])
        | none => .ok none := by
  have first : FirstFrom (OccursAt text separator) cursor (some i) := found ▸ firstFrom_find? within
  have inside := (occursAt_iff.mp first.2.1).1
  have ordered := first.1
  have progress := List.length_pos_iff.mpr nonempty
  have moves : cursor < i + separator.length ∧ i + separator.length ≤ text.length := by omega
  refine ⟨moves.1, moves.2, ?_⟩
  rw [pieces, search_eq within, found]
  change (do
    match read (← slice text cursor i) with
    | some part =>
      if cursor < i + separator.length ∧ i + separator.length ≤ text.length then
        pieces read text separator (i + separator.length) (parts ++ [part])
      else .error .cursor
    | none => return none) = _
  rw [slice_eq ordered (by omega)]
  simp only [if_pos moves]
  rfl

theorem pieces_eq (nonempty : separator ≠ []) (within : cursor ≤ text.length) :
    pieces read text separator cursor parts =
      .ok (((splitUnits separator [] 0 (text.drop cursor)).mapM read).map (parts ++ ·)) := by
  induction rest : text.length - cursor using Nat.strongRecOn generalizing cursor parts with
  | ind rest induction =>
    rw [splitUnits_drop nonempty]
    cases found : find? text separator cursor with
    | none =>
      rw [pieces_of_none within found]
      dsimp only
      rw [List.mapM_cons, List.mapM_nil]
      cases read (text.drop cursor) <;> rfl
    | some i =>
      obtain ⟨moves, inside, step⟩ : _ ∧ _ ∧ pieces read text separator cursor parts = _ :=
        pieces_of_some nonempty within found
      rw [step]
      dsimp only
      rw [List.mapM_cons]
      cases read (between text cursor i) with
      | none => rfl
      | some part =>
        dsimp only
        rw [induction (text.length - (i + separator.length)) (by omega) inside rfl]
        cases (splitUnits separator [] 0 (text.drop (i + separator.length))).mapM read with
        | none => rfl
        | some later => exact congrArg (Except.ok <| some ·) (List.append_assoc parts [part] later)

end Parts

end Checked

end Unravel
