import Unravel.Proofs.Eval.Spelled
import Unravel.Proofs.Simplify.Lighten
import Unravel.Proofs.Tree.Term
import Unravel.Proofs.Tree.Weight

/-!
Folding may make a program larger, but the expression for a value contains nothing that can be
folded but minus signs before numbers. So an operation, call or choice outweighs any number of minus
signs, a minus sign outweighs any number of other expressions, and of those a numeral that can stand
behind a minus sign weighs nothing, and `Infinity` less than the rest (`Folding.foldables`).
-/

namespace Unravel.Folding

open SimplifyM

/-- Whether a number is written without a minus sign or a name. -/
def isNumeral (x : Float) : Bool := !x.isNaN && !x.isInf && !Double.isNegative x

/-- What an expression weighs that cannot be folded. -/
noncomputable def ordinary : Degrees := .one 0 + .one 0

noncomputable def cost : Node Unit → Degrees
  | .unary .minus _ => .one 1
  | .unary .. | .binary .. | .logical .. | .call .. | .conditional .. => .one 2
  | .literal (.number x) => if isNumeral x then 0 else ordinary
  | .identifier name => if name = "Infinity" then .one 0 else ordinary
  | _ => ordinary

noncomputable def foldables : Weighing Degrees := .sum cost

variable {p : Program} {t grown : Tree} {id argument piece : NodeId} {x : Float}

theorem height_ordinary : ordinary.height ≤ 0 :=
  (Degrees.height_add_le _ _).trans (max_le (Degrees.height_one 0) (Degrees.height_one 0))

theorem cost_cases (node : Node NodeId) : (∃ x, node = .literal (.number x) ∧ isNumeral x = true) ∨
    node = .identifier "Infinity" ∨ ordinary ≤ cost node.tag := by
  have heavy (n : ℕ) : ordinary ≤ .one (n + 1) :=
    (Degrees.lt_one (Nat.lt_succ_of_le (height_ordinary.trans (Nat.zero_le n)))).le
  cases node with
  | literal value =>
    cases value with
    | number x =>
      by_cases numeral : isNumeral x = true
      · exact .inl ⟨x, rfl, numeral⟩
      · exact .inr (.inr (by simp [Node.tag, cost, numeral]))
    | string | boolean | null => exact .inr (.inr le_rfl)
  | identifier name =>
    by_cases same : name = "Infinity"
    · exact .inr (.inl (by rw [same]))
    · exact .inr (.inr (by simp [Node.tag, cost, same]))
  | unary operator _ => cases operator <;> exact .inr (.inr (heavy _))
  | binary | logical | call | conditional => exact .inr (.inr (heavy 1))
  | _ => exact .inr (.inr le_rfl)

theorem cost_of_isCandidate {node : Node NodeId} (candidate : isCandidate node = true) :
    node.tag = .unary .minus () ∨ cost node.tag = .one 2 := by
  cases node with
  | unary operator argument => cases operator <;> simp [Node.tag, cost]
  | binary | logical | call | conditional => exact .inr rfl
  | _ => cases candidate

/-! ### What values weigh -/

theorem adds_identifier (name : String) :
    t.Adds foldables [] Tree.piece (Tree.identifier name) ordinary := by
  refine Tree.adds_leaf rfl (by simp [Node.part]) fun sum => add_le_add_left ?_ sum
  rw [Node.tag, cost]
  split
  · exact le_add_of_nonneg_left zero_le
  · exact le_rfl

theorem adds_stringLiteral (value : String) :
    t.Adds foldables [] Tree.piece (Tree.stringLiteral value) ordinary :=
  Tree.adds_leaf rfl (by simp [Node.part]) fun _ => le_rfl

theorem isNumeral_magnitude (isNumber : x.isNaN = false) (isFinite : x.isInf = false) :
    isNumeral (if Double.isNegative x then -x else x) = true := by
  obtain ⟨negNumber, negInf, negSign⟩ := Double.classes_of_neg isNumber
  split <;> rename_i isNegative
  · simp only [isNumeral, negNumber, negInf, negSign, isFinite, isNegative]
    rfl
  · simp only [isNumeral, isNumber, isFinite, isNegative]
    rfl

noncomputable def numberWeight (x : Float) : Degrees :=
  if x.isNaN then ordinary
  else (if Double.isNegative x then .one 1 else 0) + if x.isInf then .one 0 else 0

theorem height_numberWeight (x : Float) : (numberWeight x).height ≤ 1 := by
  unfold numberWeight
  split
  · exact height_ordinary.trans (Nat.zero_le 1)
  · refine (Degrees.height_add_le _ _).trans (max_le ?_ ?_)
    · split
      · exact Degrees.height_one 1
      · exact Nat.zero_le 1
    · split
      · exact (Degrees.height_one 0).trans (Nat.zero_le 1)
      · exact Nat.zero_le 1

theorem adds_encodeNumber (x : Float) :
    t.Adds foldables [] Tree.piece (Tree.encodeNumber x) (numberWeight x) := by
  unfold Tree.encodeNumber numberWeight
  split
  · exact adds_identifier "NaN"
  · rename_i isNumber
    rw [Bool.not_eq_true] at isNumber
    have signed (magnitude : NodeId) : t.Adds foldables (Tree.piece magnitude) Tree.piece
        (if Double.isNegative x then Tree.alloc (.unary .minus magnitude) else pure magnitude)
        (if Double.isNegative x then .one 1 else 0) := by
      split
      · exact Tree.adds_alloc (.unary .minus magnitude) (by simp [Node.part]) fun _ => le_rfl
      · exact .pure .rfl
    dsimp only
    split
    · exact .bind (Tree.adds_leaf rfl (by simp [Node.part]) fun _ => le_of_eq rfl) signed
    · rename_i isFinite
      rw [Bool.not_eq_true] at isFinite
      refine .bind (Tree.adds_leaf rfl (by simp [Node.part]) fun sum => le_of_eq ?_) signed
      change (if isNumeral _ then 0 else _) + sum = _
      rw [if_pos (isNumeral_magnitude isNumber isFinite)]

theorem adds_encodeProperty (key : String) (value : NodeId) : t.Adds foldables [value] Tree.piece
    (Tree.encodeProperty key value) (ordinary + ordinary) := by
  unfold Tree.encodeProperty
  split
  · exact Tree.adds_labelled (adds_identifier key) (fun _ => .rfl) (by simp [Node.part])
      fun _ _ => le_rfl
  · exact Tree.adds_labelled (adds_stringLiteral key) (fun _ => .rfl) (by simp [Node.part])
      fun _ _ => le_rfl

mutual

theorem adds_encode :
    (v : Value) → ∃ a : Degrees, a.height ≤ 1 ∧ t.Adds foldables [] Tree.piece v.encode a
  | .undefined => by
    rw [Value.encode]
    exact ⟨ordinary, height_ordinary.trans (Nat.zero_le 1), adds_identifier "undefined"⟩
  | .null | .bool _ => by
    rw [Value.encode]
    exact ⟨ordinary, height_ordinary.trans (Nat.zero_le 1),
      Tree.adds_leaf rfl (by simp [Node.part]) fun _ => le_rfl⟩
  | .string s => by
    rw [Value.encode]
    exact ⟨ordinary, height_ordinary.trans (Nat.zero_le 1), adds_stringLiteral s⟩
  | .number x => by
    rw [Value.encode]
    exact ⟨numberWeight x, height_numberWeight x, adds_encodeNumber x⟩
  | .array items => by
    obtain ⟨a, height, adds⟩ := adds_encodeItems items
    rw [Value.encode]
    refine ⟨ordinary + a,
      (Degrees.height_add_le _ _).trans (max_le (height_ordinary.trans (Nat.zero_le 1)) height),
      .bind adds fun elements => ?_⟩
    exact Tree.adds_alloc (.array elements) (by simp [Node.part]) fun _ => le_rfl
  | .object entries => by
    obtain ⟨a, height, adds⟩ := adds_encodeEntries entries
    rw [Value.encode]
    refine ⟨ordinary + a,
      (Degrees.height_add_le _ _).trans (max_le (height_ordinary.trans (Nat.zero_le 1)) height),
      .bind adds fun properties => ?_⟩
    exact Tree.adds_alloc (.object properties) (by simp [Node.part]) fun _ => le_rfl

theorem adds_encodeItems : (items : List Value) →
    ∃ a : Degrees, a.height ≤ 1 ∧ t.Adds foldables [] (fun made => made) (Value.encodeItems items) a
  | [] => by
    rw [Value.encodeItems]
    exact ⟨0, Nat.zero_le 1, .pure .rfl⟩
  | item :: rest => by
    obtain ⟨a, height, adds⟩ := adds_encode item
    obtain ⟨b, restHeight, restAdds⟩ := adds_encodeItems rest
    rw [Value.encodeItems]
    refine ⟨0 + b + a, (Degrees.height_add_le _ _).trans (max_le ?_ height), .bind adds fun first =>
      .bind (restAdds.frame (Tree.piece first))
        fun others => .pure (List.perm_append_singleton first others)⟩
    rwa [zero_add]

theorem adds_encodeEntries : (entries : List (String × Value)) →
    ∃ a : Degrees,
      a.height ≤ 1 ∧ t.Adds foldables [] (fun made => made) (Value.encodeEntries entries) a
  | [] => by
    rw [Value.encodeEntries]
    exact ⟨0, Nat.zero_le 1, .pure .rfl⟩
  | (key, value) :: rest => by
    obtain ⟨a, height, adds⟩ := adds_encode value
    obtain ⟨b, restHeight, restAdds⟩ := adds_encodeEntries rest
    have property : (ordinary + ordinary).height ≤ 1 :=
      (Degrees.height_add_le _ _).trans
        (max_le (height_ordinary.trans (Nat.zero_le 1)) (height_ordinary.trans (Nat.zero_le 1)))
    rw [Value.encodeEntries]
    refine ⟨0 + b + (ordinary + ordinary) + a, ?_, .bind adds fun encoded =>
      .bind (adds_encodeProperty key encoded) fun first =>
        .bind (restAdds.frame (Tree.piece first))
          fun others => .pure (List.perm_append_singleton first others)⟩
    rw [zero_add]
    refine (Degrees.height_add_le _ _).trans (max_le ?_ height)
    exact (Degrees.height_add_le _ _).trans (max_le restHeight property)

end

/-! ### Minus signs -/

theorem exists_of_minus {value : Value} (evaluated : p.evaluate? id = some value)
    (shape : p.node id = .unary .minus argument) :
    ∃ v, p.evaluateWithin 64 argument = some v ∧ value = .number (-v.toNumber) := by
  rw [Program.evaluate?, Program.evaluateWithin_succ, Program.evaluateStep, shape] at evaluated
  obtain ⟨v, found, result⟩ := Option.bind_eq_some_iff.mp evaluated
  exact ⟨v, found, (Option.some.inj result).symm⟩

theorem eval_numeral (shape : p.node argument = .literal (.number x)) :
    p.evaluateWithin 64 argument = some (.number x) := by
  rw [Program.evaluateWithin_succ, Program.evaluateStep, shape]
  rfl

theorem agrees_of_spelled (linked : grown.Linked) (isNumber : x.isNaN = false)
    (isNegative : Double.isNegative x = true) (spells : Value.SpellsNumber grown x piece)
    (shape : grown.node id = .unary .minus argument) (same : grown.node argument =
      if x.isInf then .identifier "Infinity" else .literal (.number (Double.negated x true))) :
    grown.agrees piece id = true := by
  rw [Value.SpellsNumber, isNumber, isNegative] at spells
  obtain ⟨magnitude, pieceShape, magnitudeShape⟩ := spells
  have term {node : Node NodeId} {id : NodeId} (there : node ≠ .empty)
      (shape : grown.node id = node) :
      grown.term id = .mk (node.map grown.term) := by
    rw [linked.term_eq (Tree.allocated_of_node_ne (shape ▸ there)), shape]
  refine Tree.agrees_of_term_eq ?_
  have sameMagnitude : grown.term magnitude = grown.term argument := by
    split at same <;> rename_i isInf
    · rw [isInf] at magnitudeShape
      rw [term (by simp) magnitudeShape, term (by simp) same]
      rfl
    · rw [Bool.not_eq_true] at isInf
      rw [isInf] at magnitudeShape
      rw [term (by simp) magnitudeShape, term (by simp) same]
      rfl
  rw [term (by simp) pieceShape, term (by simp) shape]
  change Term.mk (.unary .minus (grown.term magnitude)) = .mk (.unary .minus (grown.term argument))
  rw [sameMagnitude]

/--
The value of a minus sign before an expression is outweighed by it unless it is written just so. -/
theorem numberWeight_lt (linked : t.Linked) (shape : t.node id = .unary .minus argument)
    (ofNumeral : ∀ y, t.node argument = .literal (.number y) → x = -y)
    (differs : x.isNaN = false → Double.isNegative x = true → t.node argument ≠
      if x.isInf then .identifier "Infinity" else .literal (.number (Double.negated x true))) :
    numberWeight x < t.weight foldables id := by
  have held : t.parent? argument = some id := by
    rw [← linked.mem_children, shape]
    exact List.mem_singleton_self _
  have weighs : t.weight foldables id = .one 1 + (t.weight foldables argument + 0) := by
    rw [linked.weight_of_node foldables (by simp) shape]
    rfl
  have least : cost (t.node argument).tag ≤ t.weight foldables argument := by
    rw [linked.weight_eq foldables (Tree.allocated_of_parent? held)]
    exact le_add_of_nonneg_right zero_le
  have light {a : Degrees} (height : a.height ≤ 0) : a < .one 1 + t.weight foldables argument :=
    (Degrees.lt_one (Nat.lt_succ_of_le height)).trans_le (le_add_of_nonneg_right zero_le)
  rw [weighs, add_zero, numberWeight]
  split
  · exact light height_ordinary
  · rename_i isNumber
    rw [Bool.not_eq_true] at isNumber
    split
    · rename_i isNegative
      have differs := differs isNumber isNegative
      refine add_lt_add_right ?_ _
      have twice : Degrees.one 0 < ordinary := lt_add_of_pos_left _ (Degrees.one_pos 0)
      rcases cost_cases (t.node argument) with ⟨y, numeral, isPlain⟩ | name | heavy
      · -- The expression for the negative of a numeral is a minus sign before the numeral.
        simp only [isNumeral, Bool.and_eq_true, Bool.not_eq_true'] at isPlain
        rw [ofNumeral y numeral, (Double.classes_of_neg isPlain.1.1).2.1, isPlain.1.2,
          Double.negated, if_pos rfl, Double.neg_neg] at differs
        exact absurd numeral differs
      · split
        · rename_i isInf
          rw [if_pos isInf] at differs
          exact absurd name differs
        · rw [name] at least
          exact (Degrees.one_pos 0).trans_le least
      · split
        · exact twice.trans_le (heavy.trans least)
        · exact ((Degrees.one_pos 0).trans twice).trans_le (heavy.trans least)
    · rw [zero_add]
      split
      · exact light (Degrees.height_one 0)
      · exact light le_rfl

/-- An expression outweighs its value, unless they agree. -/
theorem exists_weight_lt (linked : p.tree.Linked) (allocated : p.tree.Allocated id)
    (candidate : (p.tree.node id).tag = .unary .minus () ∨ cost (p.tree.node id).tag = .one 2)
    {value : Value} (evaluated : p.evaluate? id = some value) :
    ∃ a, p.tree.Adds foldables [] Tree.piece value.encode a ∧
      ∀ piece grown, p.tree.Grows grown → Value.Spelled grown value piece →
      grown.agrees piece id = false →
        a < p.tree.weight foldables id := by
  rcases candidate with minus | heavy
  · obtain ⟨argument, shape⟩ : ∃ argument, p.tree.node id = .unary .minus argument := by
      cases shape : p.tree.node id <;> simp_all [Node.tag]
    obtain ⟨v, found, rfl⟩ := exists_of_minus evaluated shape
    have held : p.tree.parent? argument = some id := by
      rw [← linked.mem_children, shape]
      exact List.mem_singleton_self _
    have adds : p.tree.Adds foldables [] Tree.piece (Value.number (-v.toNumber)).encode
        (numberWeight (-v.toNumber)) := by
      rw [Value.encode]
      exact adds_encodeNumber (-v.toNumber)
    refine ⟨_, adds, fun piece grown grows spells differ => ?_⟩
    refine numberWeight_lt linked shape (fun y numeral => ?_) fun isNumber isNegative same => ?_
    · rw [eval_numeral numeral, Option.some.injEq] at found
      rw [← found]
      rfl
    · rw [← grows.node (Tree.allocated_of_parent? held)] at same
      rw [← grows.node allocated] at shape
      rw [Value.Spelled] at spells
      rw [agrees_of_spelled grows.linked isNumber isNegative spells shape same] at differ
      cases differ
  · obtain ⟨a, height, adds⟩ := adds_encode (t := p.tree) value
    refine ⟨a, adds, fun _ _ _ _ _ => (Degrees.lt_one (Nat.lt_succ_of_le height)).trans_le ?_⟩
    rw [linked.weight_eq foldables allocated, ← heavy]
    exact le_add_of_nonneg_right zero_le

theorem lightens (steady : p.Steady) :
    Surely p run fun changed q => True ∧ p.Lightens foldables changed q := by
  refine .visit (fun _ => True) steady trivial
    fun id q steadyAfter leads _ wasCandidate attached => .program ?_
  split
  · exact .pure steadyAfter ⟨trivial, .refl q⟩
  · rename_i value planned
    have free : p.Free id := by
      refine .of_isPlain steady ?_
      cases shape : p.node id <;> simp_all [isCandidate, Node.isPlain]
    have candidate := cost_of_isCandidate wasCandidate
    rw [Program.node, ← leads.tag free.allocated] at candidate
    have notRoot : id ≠ q.root := leads.root ▸ steady.ne_root fun body same => by
      rw [same] at wasCandidate
      cases wasCandidate
    have evaluated := (Option.filter_eq_some_iff.mp planned).1
    obtain ⟨a, adds, lighter⟩ :=
      exists_weight_lt steadyAfter.linked (leads.allocated free.allocated) candidate evaluated
    refine Surely.offer steadyAfter adds attached notRoot
      fun offers steadyGrown further => .program ?_
    have grows := offers.building.grows
    have spelled :=
      Value.spelled_encode value
        (.start steadyAfter.linked steadyAfter.wellBound steadyAfter.nonempty)
    split
    · exact .pure steadyGrown
        ⟨trivial, .of_le (Program.weight_grow steadyAfter.linked steadyAfter.isTop grows).le⟩
    · rename_i differ
      rw [Bool.not_eq_true] at differ
      have loose := offers.building.loose _ (List.mem_singleton_self _)
      refine .mono (Surely.recorded steadyGrown ((free.leads leads).leads further) loose.allocated
        offers.possible) ?_
      refine fun changed r replaced => ⟨trivial, ?_⟩
      have exchanged : q.Exchanged foldables a id r := ⟨_, _, offers, replaced.1⟩
      exact exchanged.lightens steadyAfter (lighter _ _ grows spelled differ)

end Unravel.Folding
