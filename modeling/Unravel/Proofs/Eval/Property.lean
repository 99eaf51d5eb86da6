import Mathlib.Tactic.Common
import Unravel.Eval.Method
import Unravel.Proofs.Eval.Keyed
import Unravel.Proofs.Numeral.Digits
import Unravel.Proofs.Program.Meaning
import Unravel.Simplify.Shape

/-!
What an object literal holds under a name, looked up in the tree and looked up in its value
(`Program.property?_of_evaluate?`). The tree is searched from the last property to the first, and
the value is built from the first property to the last, so that in both the last of several
properties with one name counts.

Which keys read the elements of arrays and strings. A key reads the element at an index exactly if
it spells the index in decimal digits, perhaps with zeros or a plus sign in front
(`Method.readsAt_array_iff`, `Method.readsAt_string_iff`), so it is the spelling of the index itself
exactly if nothing stands in front (`Method.reads_canonically`).
-/

namespace Unravel

variable {p : Program} {object property value : NodeId} {properties : List NodeId}
  {name key : String} {entries result : List (String × Value)} {v : Value} {limit : Nat}

theorem Value.lookup_setEntry (key name : String) (v : Value) (entries : List (String × Value)) :
    (setEntry name v entries).lookup key = if key = name then some v else entries.lookup key := by
  have one (first : String) (value : Value) (rest : List (String × Value)) :
      ((first, value) :: rest).lookup key =
        if key = first then some value else rest.lookup key := by
    rw [List.lookup_cons]
    by_cases same : key = first
    · rw [if_pos same, beq_iff_eq.mpr same]
    · rw [if_neg same, beq_eq_false_iff_ne.mpr same]
  induction entries with
  | nil => exact one name v []
  | cons head rest induction =>
    obtain ⟨first, other⟩ := head
    by_cases isFirst : first = name
    · rw [setEntry, if_pos isFirst, one, one, isFirst]
      split <;> rfl
    · rw [setEntry, if_neg isFirst, one, one, induction]
      split
      · rename_i same
        rw [if_neg (same ▸ isFirst)]
      · rfl

namespace Tree

variable {t : Tree}

theorem exists_of_propertyName? (named : t.propertyName? property = some name) :
    ∃ key value computed, t.node property = .property key value computed ∧
      ((t.node key = .identifier name ∧ computed = false) ∨
        ∃ raw, t.node key = .literal (.string name raw)) := by
  unfold propertyName? at named
  split at named
  · rename_i key value computed shape
    refine ⟨key, value, computed, shape, ?_⟩
    split at named
    · rename_i keyShape
      cases computed with
      | true => cases named
      | false =>
        cases named
        exact .inl ⟨keyShape, rfl⟩
    · rename_i raw keyShape
      cases named
      exact .inr ⟨raw, keyShape⟩
    · cases named
  · cases named

def lastValue? (t : Tree) (properties : List NodeId) (name : String) : Option NodeId :=
  (properties.reverse.find? fun property => t.propertyName? property = some name).bind
    fun property =>
      match t.node property with
      | .property _ value _ => some value
      | _ => none

theorem entryOf?_eq (shape : t.node object = .object properties)
    (named : ∀ property ∈ properties, (t.propertyName? property).isSome = true) (name : String) :
    t.entryOf? object name = t.lastValue? properties name := by
  have all : (properties.any fun property => (t.propertyName? property).isNone) = false := by
    rw [List.any_eq_false]
    intro property member
    simpa [Option.isSome_iff_ne_none] using named property member
  rw [entryOf?, shape, lastValue?]
  simp only [all, Bool.false_eq_true, if_false]
  cases properties.reverse.find? fun property => t.propertyName? property = some name <;> rfl

theorem lastValue?_cons {computed : Bool} {label : NodeId} {rest : List NodeId}
    (shape : t.node property = .property label value computed)
    (named : t.propertyName? property = some key) (name : String) :
    t.lastValue? (property :: rest) name =
      (t.lastValue? rest name).or (if name = key then some value else none) := by
  rw [lastValue?, lastValue?, List.reverse_cons, List.find?_append]
  cases found : rest.reverse.find? fun property => t.propertyName? property = some name with
  | some later =>
    have isName : t.propertyName? later = some name := by simpa using List.find?_some found
    obtain ⟨_, other, _, laterShape, -⟩ := exists_of_propertyName? isName
    simp [laterShape]
  | none =>
    by_cases same : name = key
    · simp [named, same, shape]
    · simp [named, same, Ne.symm same]

theorem lastValue?_of_last {before after : List NodeId}
    (split : properties = before ++ property :: after)
    (named : t.propertyName? property = some name)
    (last : ∀ later ∈ after, t.propertyName? later ≠ some name) :
    ∃ key value computed, t.node property = .property key value computed ∧
      t.lastValue? properties name = some value := by
  obtain ⟨key, value, computed, shape, -⟩ := exists_of_propertyName? named
  refine ⟨key, value, computed, shape, ?_⟩
  have noLater : (after.reverse.find? fun property => t.propertyName? property = some name) =
      none := by
    simpa using last
  rw [lastValue?, split, List.reverse_append, List.reverse_cons, List.append_assoc,
    List.find?_append, noLater]
  simp [named, shape]

end Tree

namespace Program

theorem evaluateKey_of_propertyName? {computed : Bool} {label : NodeId}
    (shape : p.node property = .property label value computed)
    (named : p.tree.propertyName? property = some name)
    (isKey : p.evaluateKey (p.evaluateWithin limit) label computed = some key) : key = name := by
  obtain ⟨_, _, _, sameShape, form⟩ := Tree.exists_of_propertyName? named
  obtain ⟨rfl, rfl, rfl⟩ : label = _ ∧ value = _ ∧ computed = _ := by
    simpa using shape.symm.trans sameShape
  rcases form with ⟨isName, rfl⟩ | ⟨raw, isText⟩
  · simp only [evaluateKey, show p.node label = _ from isName, Option.some.injEq] at isKey
    exact isKey.symm
  · cases computed with
    | false =>
      simp only [evaluateKey, show p.node label = _ from isText, Option.some.injEq] at isKey
      exact isKey.symm
    | true =>
      cases limit with
      | zero => simp [evaluateKey, show p.node label = _ from isText, evaluateWithin] at isKey
      | succ limit =>
        simp only [evaluateKey, show p.node label = _ from isText,
          evaluateWithin_succ, evaluateStep, Value.ofLiteral, Option.bind_some, keyText?,
          Value.isPrimitive, if_true, Value.toText, Option.some.injEq] at isKey
        exact isKey.symm

theorem lookup_of_foldlM
    (named : ∀ property ∈ properties, (p.tree.propertyName? property).isSome = true)
    (made : properties.foldlM (p.evaluateEntry (p.evaluateWithin limit)) entries = some result)
    (key : String) :
    result.lookup key = (p.tree.lastValue? properties key).elim (entries.lookup key)
        (p.evaluateWithin limit) ∧
      ∀ value, p.tree.lastValue? properties key = some value →
        (p.evaluateWithin limit value).isSome = true := by
  induction properties generalizing entries with
  | nil =>
    cases made
    exact ⟨rfl, nofun⟩
  | cons property rest induction =>
    rw [List.forall_mem_cons] at named
    obtain ⟨name, isName⟩ := Option.isSome_iff_exists.mp named.1
    obtain ⟨label, value, computed, shape, -⟩ := Tree.exists_of_propertyName? isName
    rw [List.foldlM_cons] at made
    obtain ⟨next, first, made⟩ := Option.bind_eq_some_iff.mp made
    simp only [evaluateEntry, show p.node property = _ from shape, Option.bind_eq_bind,
      Option.bind_eq_some_iff, Option.pure_def, Option.some.injEq] at first
    obtain ⟨evaluated, isKey, v, isValue, rfl⟩ := first
    obtain rfl := evaluateKey_of_propertyName? shape isName isKey
    obtain ⟨held, known⟩ := induction named.2 made
    rw [Tree.lastValue?_cons shape isName, held, Value.lookup_setEntry]
    cases later : p.tree.lastValue? rest key with
    | some other => exact ⟨rfl, fun value found => known value (later.trans found)⟩
    | none =>
      by_cases same : key = evaluated
      · simp [same, isValue]
      · simp [same]

/-- Where all properties of an object literal have static names and the literal has a value, its
value has a property exactly if the literal holds an entry of that name, and the property is the
value of the entry. The entry is that of the last property with the name. -/
theorem property?_of_evaluate? (shape : p.node object = .object properties)
    (named : ∀ property ∈ properties, (p.tree.propertyName? property).isSome = true)
    (known : p.evaluate? object = some v) (key : String) :
    (p.tree.entryOf? object key = none ↔ Method.property? v key = none) ∧
      (∀ value, p.tree.entryOf? object key = some value →
        p.evaluate? value = Method.property? v key) ∧
      ∀ before property after, properties = before ++ property :: after →
        p.tree.propertyName? property = some key →
        (∀ later ∈ after, p.tree.propertyName? later ≠ some key) →
        ∃ label value computed, p.node property = .property label value computed ∧
          p.tree.entryOf? object key = some value := by
  rw [evaluate?, evaluateWithin_succ, evaluateStep, shape] at known
  simp only [Option.bind_eq_bind, Option.bind_eq_some_iff, Option.pure_def,
    Option.some.injEq] at known
  obtain ⟨entries, made, rfl⟩ := known
  obtain ⟨held, evaluated⟩ := lookup_of_foldlM named made key
  rw [Tree.entryOf?_eq shape named, Method.property?, held]
  refine ⟨?_, fun value found => ?_, fun before property after split isName last =>
    Tree.lastValue?_of_last split isName last⟩
  · cases found : p.tree.lastValue? properties key with
    | none => simp
    | some value => simpa using Option.isSome_iff_ne_none.mp (evaluated value found)
  · obtain ⟨w, isValue⟩ := Option.isSome_iff_exists.mp (evaluated value found)
    rw [found, Option.elim_some, isValue]
    exact evaluateWithin_mono isValue (by decide)

/-! ### An instance -/

/-- The tree of `({ k: false, "k": true, ["k"]: null });`. -/
def overwritten : Tree :=
  ⟨#[⟨.identifier "k", some ⟨2⟩⟩, ⟨.literal (.boolean false), some ⟨2⟩⟩,
    ⟨.property ⟨0⟩ ⟨1⟩ false, some ⟨9⟩⟩, ⟨.literal (.string "k" none), some ⟨5⟩⟩,
    ⟨.literal (.boolean true), some ⟨5⟩⟩, ⟨.property ⟨3⟩ ⟨4⟩ false, some ⟨9⟩⟩,
    ⟨.literal (.string "k" none), some ⟨8⟩⟩, ⟨.literal .null, some ⟨8⟩⟩,
    ⟨.property ⟨6⟩ ⟨7⟩ true, some ⟨9⟩⟩, ⟨.object [⟨2⟩, ⟨5⟩, ⟨8⟩], some ⟨10⟩⟩,
    ⟨.expressionStatement ⟨9⟩, some ⟨11⟩⟩, ⟨.program [⟨10⟩], none⟩]⟩

/-- Of three properties with one name in three spellings, the last one counts. -/
theorem exists_property?_of_evaluate? : ∃ p v, ofTree overwritten ⟨11⟩ = .ok p ∧
    p.evaluate? ⟨9⟩ = some v ∧ p.tree.entryOf? ⟨9⟩ "k" = some ⟨7⟩ ∧
      p.evaluate? ⟨7⟩ = Method.property? v "k" ∧ Method.property? v "k" = some .null := by
  obtain ⟨scopes, made, -⟩ := exists_steady overwritten ⟨11⟩
    (Tree.linked_of_checks (by decide)) ⟨by decide, by decide⟩
    (Tree.wellBound_of_bindsWell (by decide)) rfl
  have known : Program.evaluate? ⟨overwritten, ⟨11⟩, scopes, false⟩ ⟨9⟩ =
      some (.object [("k", .null)]) := rfl
  have named : ∀ property ∈ [⟨2⟩, ⟨5⟩, ⟨8⟩], (overwritten.propertyName? property).isSome =
      true := by decide
  have isName : overwritten.propertyName? ⟨8⟩ = some "k" := by decide
  obtain ⟨-, same, last⟩ := property?_of_evaluate? rfl named known "k"
  obtain ⟨_, _, _, shape, found⟩ := last [⟨2⟩, ⟨5⟩] ⟨8⟩ [] rfl isName nofun
  cases shape
  exact ⟨_, _, made, known, found, same _ found, rfl⟩

end Program

/-! ### Elements of arrays and strings -/

namespace Method

open Decimal

variable {items : List Value} {s : String} {i : Nat} {v : Value}

/-- Whether a sign or a zero that is not needed stands in front. -/
def isPadded (key : String) : Bool :=
  match key.toList with
  | '+' :: _ | '0' :: _ :: _ => true
  | _ => false

theorem toList_toString (i : Nat) : (toString i).toList = Nat.toDigits 10 i := Nat.toList_repr

theorem of_indexKey? (isKey : indexKey? key = some i) : ∃ digits, digits ≠ [] ∧
    (∀ c ∈ digits, isDigit c = true) ∧ natOfDigits digits = i ∧ i < 2 ^ 64 ∧
      (key.toList = '+' :: digits ∨ key.toList = digits ∧ digits.head? ≠ some '+') := by
  rw [indexKey?] at isKey
  dsimp only at isKey
  generalize shape : key.toList = cs at isKey ⊢
  have form : ∃ digits, (cs = '+' :: digits ∨ cs = digits ∧ digits.head? ≠ some '+') ∧
      (if (digits.isEmpty || !digits.all isDigit) = true then none
        else if natOfDigits digits < 0x10000000000000000 then some (natOfDigits digits) else none) =
          some i := by
    split at isKey
    · rename_i rest
      exact ⟨rest, .inl rfl, isKey⟩
    · rename_i unsigned
      refine ⟨cs, .inr ⟨rfl, fun isSign => ?_⟩, isKey⟩
      obtain ⟨rest, isSigned⟩ := List.head?_eq_some_iff.mp isSign
      exact unsigned rest isSigned
  obtain ⟨digits, form, isKey⟩ := form
  split at isKey
  · cases isKey
  · rename_i some
    simp only [Bool.or_eq_true, List.isEmpty_iff, Bool.not_eq_true', not_or, Bool.not_eq_false,
      List.all_eq_true] at some
    simp only [Option.ite_none_right_eq_some, Option.some.injEq] at isKey
    obtain ⟨bound, rfl⟩ := isKey
    exact ⟨digits, some.1, some.2, rfl, bound, form⟩

theorem eq_toString_iff (isKey : indexKey? key = some i) :
    key = toString i ↔ isPadded key = false := by
  obtain ⟨digits, nonempty, all, rfl, -, form⟩ := of_indexKey? isKey
  obtain ⟨c, cs, rfl⟩ := List.exists_cons_of_ne_nil nonempty
  have isSpelled : key = toString (natOfDigits (c :: cs)) ↔
      key.toList = Nat.toDigits 10 (natOfDigits (c :: cs)) := by
    rw [← toList_toString, String.toList_inj]
  rw [isSpelled, isPadded]
  rcases form with form | ⟨form, noSign⟩
  · -- The digits of a number begin with none of the signs.
    rw [form]
    refine iff_of_false (fun same => ?_) nofun
    have isDigit := Nat.isDigit_of_mem_toDigits (by decide) (by decide)
      (same ▸ List.mem_cons_self ..)
    exact absurd isDigit (by decide)
  · rw [form]
    by_cases isZero : c = '0'
    · subst isZero
      cases cs with
      | nil => exact iff_of_true rfl rfl
      | cons c cs =>
        refine iff_of_false (fun same => ?_) nofun
        rw [List.forall_mem_cons] at all
        exact toDigits_ne_zero_cons all.2 same.symm
    · have notSign : c ≠ '+' := fun same => noSign (by rw [same]; rfl)
      refine iff_of_true (toDigits_natOfDigits all isZero).symm ?_
      split
      · rename_i same
        cases same
        exact absurd rfl notSign
      · rename_i same
        cases same
        exact absurd rfl isZero
      · rfl

theorem indexKey?_toString (bound : i < 2 ^ 64) : indexKey? (toString i) = some i := by
  have digits : ∀ c ∈ Nat.toDigits 10 i, isDigit c = true := fun _ => isDigit_of_mem_toDigits
  have value : natOfDigits (Nat.toDigits 10 i) = i := Nat.ofDigitChars_ten_toDigits
  have all : (Nat.toDigits 10 i).all isDigit = true := List.all_eq_true.mpr digits
  rw [indexKey?, toList_toString]
  split
  · rename_i rest isSigned
    exact absurd (digits '+' (isSigned ▸ List.mem_cons_self ..)) (by decide)
  · simpa [Nat.toDigits_ne_nil, all, value] using bound

theorem index_of_toString {j : Nat} (isKey : indexKey? key = some i)
    (isSpelled : key = toString j) : i = j := by
  by_cases bound : j < 2 ^ 64
  · rw [isSpelled, indexKey?_toString bound] at isKey
    exact (Option.some.inj isKey).symm
  · -- Digits that denote an index denote no number beyond all indices.
    obtain ⟨digits, -, all, rfl, small, form⟩ := of_indexKey? isKey
    rw [isSpelled, toList_toString] at form
    rcases form with form | ⟨form, -⟩
    · exact absurd (isDigit_of_mem_toDigits (form ▸ List.mem_cons_self ..)) (by decide)
    · rw [← form]
      exact Nat.ofDigitChars_ten_toDigits

/-- The object that holds some values under the spellings of their indices. -/
def numbered (items : List Value) : Value :=
  .object (items.zipIdx.map fun (item, i) => (toString i, item))

theorem toString_injective {j : Nat} (same : toString i = toString j) : i = j := by
  have digits : Nat.toDigits 10 i = Nat.toDigits 10 j := by
    rw [← toList_toString, same, toList_toString]
  rw [← Nat.ofDigitChars_ten_toDigits (n := i), digits, Nat.ofDigitChars_ten_toDigits]

theorem lookup_zipIdx (start : Nat) :
    ((items.zipIdx start).map fun (item, i) => (toString i, item)).lookup key = some v ↔
      ∃ i, key = toString (start + i) ∧ items[i]? = some v := by
  induction items generalizing start with
  | nil => simp
  | cons item rest induction =>
    rw [List.zipIdx_cons, List.map_cons, List.lookup_cons]
    by_cases isFirst : key = toString start
    · subst isFirst
      rw [beq_self_eq_true]
      constructor
      · rintro ⟨⟩
        exact ⟨0, rfl, rfl⟩
      · rintro ⟨i, same, found⟩
        obtain rfl : i = 0 := by
          have := toString_injective same
          omega
        exact found
    · rw [beq_eq_false_iff_ne.mpr isFirst, induction]
      constructor
      · rintro ⟨i, same, found⟩
        exact ⟨i + 1, by rw [same, Nat.add_assoc, Nat.add_comm 1 i], found⟩
      · rintro ⟨i, same, found⟩
        cases i with
        | zero => exact absurd same isFirst
        | succ i => exact ⟨i, by rw [same, Nat.add_assoc, Nat.add_comm 1 i], found⟩

theorem property?_numbered : property? (numbered items) key = some v ↔
    ∃ i : Nat, key = toString i ∧ items[i]? = some v := by
  rw [numbered, property?, lookup_zipIdx]
  simp only [Nat.zero_add]

/-! ### What a key reads -/

/-- A key reads what stands at an index of an array or a string: in all arrays of that length, and
in all strings of that length, the property of that name is what stands there. -/
def ReadsAt (target : Value) (key : String) (i : Nat) : Prop :=
  match target with
  | .array items => i < items.length ∧
    ∀ others : List Value, others.length = items.length → property? (.array others) key = others[i]?
  | .string s => i < (Text.units s).length ∧
    ∀ t : String, (Text.units t).length = (Text.units s).length →
      property? (.string t) key = (Text.units t)[i]?.bind fun u => unitsValue? [u]
  | _ => False

theorem ne_length_of_indexKey? (isKey : indexKey? key = some i) : key ≠ "length" := by
  rintro rfl
  rw [show indexKey? "length" = none by decide] at isKey
  cases isKey

theorem property?_array_of_indexKey? (isKey : indexKey? key = some i) :
    property? (.array items) key = some (items[i]?.getD .undefined) := by
  rw [property?, if_neg (ne_length_of_indexKey? isKey), isKey]
  rfl

theorem readsAt_array_iff :
    ReadsAt (.array items) key i ↔ i < items.length ∧ indexKey? key = some i := by
  refine and_congr_right fun inside => ⟨fun reads => ?_, fun isKey others same => ?_⟩
  · -- An array in which only the element at the index is `true` tells which element is read.
    have marked := reads ((List.replicate items.length .null).set i (.bool true)) (by simp)
    rw [List.getElem?_set_self (by simpa using inside), property?] at marked
    split at marked
    · cases marked
    · obtain ⟨j, isKey, isMark⟩ := Option.bind_eq_some_iff.mp marked
      by_cases same : i = j
      · rwa [same]
      · rw [Option.pure_def, Option.some.injEq, List.getElem?_set_ne same, List.getElem?_replicate]
          at isMark
        split at isMark <;> cases isMark
  · rw [property?_array_of_indexKey? isKey, List.getElem?_eq_getElem (by omega)]
    rfl

theorem units_ofList_replicate_set {length : Nat} :
    Text.units (String.ofList ((List.replicate length 'a').set i 'b')) =
      (List.replicate length 97).set i 98 := by
  have one (cs : List Char) (short : ∀ c ∈ cs, c.toNat < 0x10000) :
      cs.flatMap Text.charUnits = cs.map fun c => .ofNat c.toNat := by
    rw [List.map_eq_flatMap, List.flatMap_def, List.flatMap_def]
    congr 1
    exact List.map_congr_left fun c member => if_pos (short c member)
  rw [Text.units, String.toList_ofList, one]
  · rw [List.map_set, List.map_replicate]
    rfl
  · intro c member
    rcases List.mem_or_eq_of_mem_set member with member | rfl
    · rw [List.eq_of_mem_replicate member]
      decide
    · decide

theorem readsAt_string_iff : ReadsAt (.string s) key i ↔
    i < (Text.units s).length ∧ indexKey? key = some i := by
  refine and_congr_right fun inside => ⟨fun reads => ?_, fun isKey t same => ?_⟩
  · have marked := reads (String.ofList ((List.replicate (Text.units s).length 'a').set i 'b'))
      (by simp [units_ofList_replicate_set])
    rw [units_ofList_replicate_set, List.getElem?_set_self (by simpa using inside), property?,
      units_ofList_replicate_set] at marked
    split at marked
    · cases marked
    · obtain ⟨j, isKey, isMark⟩ := Option.bind_eq_some_iff.mp marked
      by_cases same : i = j
      · rwa [same]
      · rw [List.getElem?_set_ne same, List.getElem?_replicate] at isMark
        by_cases within : j < (Text.units s).length
        · rw [if_pos within] at isMark
          have otherwise : some (Value.string "a") = some (.string "b") := isMark
          simp at otherwise
        · rw [if_neg within] at isMark
          cases isMark
  · rw [property?, if_neg (ne_length_of_indexKey? isKey), isKey]
    simp only [Option.bind_eq_bind, Option.bind_some]
    rw [List.getElem?_eq_getElem (by omega)]
    rfl

theorem indexKey?_of_readsAt {target : Value} (reads : ReadsAt target key i) :
    indexKey? key = some i := by
  cases target with
  | array items => exact (readsAt_array_iff.mp reads).2
  | string s => exact (readsAt_string_iff.mp reads).2
  | _ => cases reads

/-- A key that reads what stands at an index is the spelling of the index exactly if nothing is
padded. What an array and the object with the same elements hold under a key is the same, and the
key of an element is held by the object exactly if nothing is padded. -/
theorem reads_canonically (target : Value) (items : List Value) (key : String) :
    (∀ i, ReadsAt target key i → (key = toString i ↔ isPadded key = false)) ∧
      (key ≠ "length" → ∀ v w, property? (.array items) key = some v →
        property? (numbered items) key = some w → v = w) ∧
      ∀ i, ReadsAt (.array items) key i →
        ((property? (numbered items) key).isSome = true ↔ isPadded key = false) := by
  refine ⟨fun i reads => eq_toString_iff (indexKey?_of_readsAt reads),
    fun notLength v w first second => ?_, fun i reads => ?_⟩
  · obtain ⟨i, isSpelled, found⟩ := property?_numbered.mp second
    rw [property?, if_neg notLength] at first
    obtain ⟨j, isKey, first⟩ := Option.bind_eq_some_iff.mp first
    obtain rfl := index_of_toString isKey isSpelled
    rw [Option.pure_def, Option.some.injEq, found] at first
    exact first.symm
  · obtain ⟨inside, isKey⟩ := readsAt_array_iff.mp reads
    rw [← eq_toString_iff isKey, Option.isSome_iff_exists]
    simp only [property?_numbered]
    constructor
    · rintro ⟨v, j, isSpelled, -⟩
      rwa [index_of_toString isKey isSpelled]
    · rintro rfl
      exact ⟨items[i], i, rfl, List.getElem?_eq_getElem inside⟩

/-- A key with a plus sign in front reads an element that no key of the object reads. -/
theorem exists_reads_padded :
    ReadsAt (.array [.string "a", .string "b"]) "+1" 1 ∧ "+1" ≠ toString 1 ∧
      property? (.array [.string "a", .string "b"]) "+1" = some (.string "b") ∧
        property? (numbered [.string "a", .string "b"]) "+1" = none :=
  ⟨readsAt_array_iff.mpr ⟨by decide, by decide⟩, by decide, rfl, rfl⟩

end Method

end Unravel
