import Unravel.Proofs.Eval.Outside
import Unravel.Proofs.Tree.Assembly
import Unravel.Proofs.Tree.Term

/-!
Values go through expressions and back. Wherever the expression for a value is put, it has the
value, if the global names mean nothing there, and its value written down once more agrees with it
(`Program.exists_round_trip`).

Both rest on the closed term that a value is written as (`Value.term`): it does not depend on the
store.
-/

namespace Unravel

namespace Node

variable {α β : Type} (f : α → β) (children : List α)

theorem map_array : (array children).map f = array (children.map f) := by simp [map, traverse]

theorem map_object : (object children).map f = object (children.map f) := by simp [map, traverse]

theorem pattern_eq_nil_of_isConstantForm {n : Node α} (form : n.isConstantForm = true) :
    n.part .pattern = [] := by
  cases n <;> simp_all [isConstantForm, part]

end Node

namespace Value

def numberTerm (x : Float) : Term :=
  if x.isNaN then .identifier "NaN"
  else
    let magnitude : Term :=
      if x.isInf then .identifier "Infinity"
      else .mk (.literal (.number (if Double.isNegative x then -x else x)))
    if Double.isNegative x then .mk (.unary .minus magnitude) else magnitude

def propertyTerm (name : String) (value : Term) : Term :=
  .mk (.property (if Source.isIdentifierName name then .identifier name
    else .mk (.literal (.string name none))) value false)

mutual

/-- The term for a value. -/
def term : Value → Term
  | undefined => .identifier "undefined"
  | null => .mk (.literal .null)
  | bool b => .mk (.literal (.boolean b))
  | number x => numberTerm x
  | string s => .mk (.literal (.string s none))
  | array items => .mk (.array (itemTerms items))
  | object entries => .mk (.object (entryTerms entries))

def itemTerms : List Value → List Term
  | [] => []
  | item :: rest => term item :: itemTerms rest

def entryTerms : List (String × Value) → List Term
  | [] => []
  | (name, value) :: rest => propertyTerm name (term value) :: entryTerms rest

end

end Value

namespace Tree

open Value

variable {t mid after : Tree} {held : List NodeId} {id value : NodeId}

namespace Assembly

theorem term_alloc (node : Node NodeId) (assembly : t.Assembly (node.children ++ held) mid) :
    (Tree.alloc node mid).2.term (Tree.alloc node mid).1 = .mk (node.map mid.term) := by
  have made := assembly.alloc node
  have linked := assembly.grows.linked
  have nextNode : (Tree.alloc node mid).2.node (Tree.alloc node mid).1 = node := by
    rw [node_alloc]
    exact if_pos rfl
  rw [made.grows.linked.term_eq (made.loose _ (List.mem_cons_self ..)).allocated, nextNode]
  apply congrArg Term.mk
  apply Node.map_congr_of_children
  intro child member
  have allocated := (assembly.loose child (List.mem_append_left _ member)).allocated
  refine linked.term_congr made.grows.linked allocated fun {id} within => ?_
  have before := linked.allocated_of_isWithin within allocated
  refine ⟨allocated_alloc.mpr (.inl before), ?_⟩
  rw [node_alloc, if_neg]
  rintro rfl
  exact mid.not_allocated_next before

theorem term_kept {α : Type} {made : α → List NodeId} {action : StateM Tree α}
    (yields : ∀ t : Tree, Yields t.Assembly [] made action)
    (assembly : t.Assembly (id :: held) mid) :
    (action mid).2.term id = mid.term id := by
  have grown := yields mid [] mid (.start assembly.grows.linked assembly.nonempty)
  exact grown.grows.term_eq assembly.grows.linked
    (assembly.loose id (List.mem_cons_self ..)).allocated

theorem term_encodeNumber (assembly : t.Assembly held mid) (x : Float) :
    (encodeNumber x mid).2.term (encodeNumber x mid).1 = numberTerm x := by
  unfold encodeNumber numberTerm
  split
  · exact assembly.term_alloc (.identifier "NaN")
  · have signed (magnitude : Node NodeId) (leaf : magnitude.children = []) (isTerm : Term)
        (same : .mk (magnitude.map mid.term) = isTerm) :
        ((if Double.isNegative x then Tree.alloc (.unary .minus (Tree.alloc magnitude mid).1)
            else pure (Tree.alloc magnitude mid).1 : StateM Tree NodeId)
            (Tree.alloc magnitude mid).2).2.term
          ((if Double.isNegative x then Tree.alloc (.unary .minus (Tree.alloc magnitude mid).1)
            else pure (Tree.alloc magnitude mid).1 : StateM Tree NodeId)
              (Tree.alloc magnitude mid).2).1 =
          if Double.isNegative x then .mk (.unary .minus isTerm) else isTerm := by
      have first : t.Assembly (magnitude.children ++ held) mid := by rwa [leaf]
      split
      · rw [(first.alloc magnitude).term_alloc (.unary .minus _), ← same,
          ← first.term_alloc magnitude]
        rfl
      · rw [← same]
        exact first.term_alloc magnitude
    dsimp only
    split
    · exact signed (.identifier "Infinity") rfl _ rfl
    · exact signed (.literal (.number _)) rfl _ rfl

theorem term_encodeProperty (assembly : t.Assembly (value :: held) mid) (name : String) :
    (encodeProperty name value mid).2.term (encodeProperty name value mid).1 =
      propertyTerm name (mid.term value) := by
  have labelled (label : Node NodeId) (leaf : label.children = []) :
      (Tree.alloc (.property (Tree.alloc label mid).1 value false) (Tree.alloc label mid).2).2.term
        (Tree.alloc (.property (Tree.alloc label mid).1 value false) (Tree.alloc label mid).2).1 =
        .mk (.property (.mk (label.map mid.term)) (mid.term value) false) := by
    have first : t.Assembly (label.children ++ (value :: held)) mid := by rwa [leaf]
    have yields (t : Tree) : Yields t.Assembly [] piece (Tree.alloc label) :=
      fun _ _ made => .alloc label (by rwa [leaf])
    have kept := assembly.term_kept yields
    rw [(first.alloc label).term_alloc (.property _ value false), ← first.term_alloc label, ← kept]
    rfl
  unfold encodeProperty propertyTerm
  split
  · exact labelled (.identifier name) rfl
  · exact labelled (.literal (.string name none)) rfl

mutual

theorem term_encode (v : Value) {held : List NodeId} {mid : Tree} (assembly : t.Assembly held mid) :
    (v.encode mid).2.term (v.encode mid).1 = v.term :=
  match v with
  | .undefined => assembly.term_alloc (.identifier "undefined")
  | .null => assembly.term_alloc (.literal .null)
  | .bool b => assembly.term_alloc (.literal (.boolean b))
  | .number x => assembly.term_encodeNumber x
  | .string s => assembly.term_alloc (.literal (.string s none))
  | .array items => by
    have elements := (workshop_assembly t).encodeItems items held mid assembly
    rw [encode, Value.term, ← map_term_encodeItems items assembly]
    have above := elements.term_alloc (.array _)
    rw [Node.map_array] at above
    exact above
  | .object entries => by
    have properties := (workshop_assembly t).encodeEntries entries held mid assembly
    rw [encode, Value.term, ← map_term_encodeEntries entries assembly]
    have above := properties.term_alloc (.object _)
    rw [Node.map_object] at above
    exact above

theorem map_term_encodeItems (items : List Value) {held : List NodeId} {mid : Tree}
    (assembly : t.Assembly held mid) :
    (encodeItems items mid).1.map (encodeItems items mid).2.term = itemTerms items :=
  match items with
  | [] => rfl
  | item :: rest => by
    have first := (workshop_assembly t).encode item held mid assembly
    have kept := first.term_kept fun t => (workshop_assembly t).encodeItems rest
    rw [encodeItems, itemTerms, ← term_encode item assembly, ← map_term_encodeItems rest first,
      ← kept]
    rfl

theorem map_term_encodeEntries (entries : List (String × Value)) {held : List NodeId} {mid : Tree}
    (assembly : t.Assembly held mid) :
    (encodeEntries entries mid).1.map (encodeEntries entries mid).2.term = entryTerms entries :=
  match entries with
  | [] => rfl
  | (name, value) :: rest => by
    have first := (workshop_assembly t).encode value held mid assembly
    have second := (workshop_assembly t).encodeProperty name (value.encode mid).1 held _ first
    have kept := second.term_kept fun t => (workshop_assembly t).encodeEntries rest
    rw [encodeEntries, entryTerms, ← term_encode value assembly, ← first.term_encodeProperty name,
      ← map_term_encodeEntries rest second, ← kept]
    rfl

end

end Assembly

theorem Linked.not_binds_of_constant (linked : t.Linked) (free : ¬t.Binds value)
    (constant : ∀ id, t.isWithin id value = true → (t.node id).isConstantForm = true)
    (within : t.isWithin id value = true) : ¬t.Binds id := by
  intro binds
  by_cases isRoot : id = value
  · rw [isRoot] at binds
    exact free binds
  · obtain ⟨parent, held⟩ := linked.exists_parent_of_binds binds
    have form := constant parent (by rwa [linked.isWithin_parent held isRoot] at within)
    cases binds with
    | place isPlace position =>
      obtain rfl : _ = parent :=
        Option.some.inj ((linked.parent?_of_mem_part position).symm.trans held)
      obtain ⟨init, shape⟩ | ⟨f, shape, -⟩ | ⟨c, shape, -⟩ := place_cases isPlace position <;>
        rw [shape] at form <;> cases form
    | nested outer position =>
      obtain rfl : _ = parent :=
        Option.some.inj ((linked.parent?_of_mem_part position).symm.trans held)
      rw [Node.pattern_eq_nil_of_isConstantForm form] at position
      cases position

end Tree

namespace Program

open Value

variable {p : Program} {target placed id part : NodeId} {v : Value}

theorem Steady.sight_of_constant (steady : p.Steady) (free : ¬p.tree.Binds id)
    (constant : ∀ part, p.tree.isWithin part id = true → (p.node part).isConstantForm = true)
    (within : p.tree.isWithin part id = true) : p.tree.sight part = p.tree.sight id := by
  have linked := steady.linked
  have closed {part : NodeId} (within : p.tree.isWithin part id = true) :
      p.tree.opens part = false :=
    Tree.opens_of_isSilent (Node.isSilent_of_isConstantForm (constant part within))
  induction part using linked.induction with
  | step part induction =>
    by_cases isRoot : part = id
    · rw [isRoot]
    · obtain ⟨parent, held⟩ : ∃ parent, p.tree.parent? part = some parent := by
        by_contra top
        rw [not_exists, ← Option.eq_none_iff_forall_ne_some] at top
        rw [Tree.isWithin_of_root top] at within
        exact isRoot within
      have withinParent : p.tree.isWithin parent id = true := by
        rwa [linked.isWithin_parent held isRoot] at within
      rw [linked.sight_of_child held (linked.not_binds_of_constant free constant within)
        (closed within) (linked.not_binds_of_constant free constant withinParent)
        (closed withinParent)]
      exact induction parent held withinParent

theorem Steady.global_of_spelled (steady : p.Steady) (attached : p.isAttached id = true)
    (free : ¬p.tree.Binds id) (spelled : Spelled p.tree v id)
    (unbound : ∀ name ∈ v.globals, p.isUnbound id name = true) :
    p.Global fun part => p.tree.isWithin part id = true where
  closed within child member := by
    have held := steady.linked.mem_children.mp member
    exact steady.linked.isWithin_trans (steady.linked.isWithin_of_parent held) within
  unbound {part} within := by
    have linked := steady.linked
    rw [isAttached_eq linked steady.isTop.top] at attached
    have allocated := linked.allocated_of_isWithin attached steady.isTop.allocated
    have isPart {part : NodeId} (within : p.tree.isWithin part id = true) :
        IsConstantPart p.tree v.globals part := by
      apply Spelled.parts v spelled p.tree.size
      rwa [← linked.mem_descendants_iff allocated] at within
    have constant (part : NodeId) (within : p.tree.isWithin part id = true) := (isPart within).form
    rw [steady.sound.bindingOf?_eq_none_iff, Lexicon.meaning?]
    cases isUse : p.lexicon.uses part with
    | some use =>
      simp only [lexicon, Tree.lexicon, Option.ite_none_right_eq_some, Tree.useAt?,
        Option.bind_eq_some_iff, Option.some.injEq] at isUse
      obtain ⟨-, name, isName, isUse, rfl⟩ := isUse
      have shape : p.tree.node part = .identifier name := by
        cases shape : p.tree.node part <;> simp_all [Node.identifier?]
      dsimp only
      rw [steady.sight_of_constant free constant within, ← steady.sound.isUnbound_iff attached]
      obtain isGlobal | ⟨parent, isLabel⟩ := (isPart within).spelled name shape
      · exact unbound name isGlobal
      · -- A key is not looked up.
        rw [linked.isUse_role_of_label isLabel] at isUse
        cases isUse
    | none =>
      have absent : p.lexicon.declarationOf? part = none := by
        rw [Lexicon.declarationOf?_eq_none]
        rintro d member rfl
        obtain ⟨at_, -, declares⟩ := (linked.mem_declared steady.isTop).mp member
        by_cases inside : p.tree.isWithin at_ id = true
        · rw [Tree.declarationsAt_of_isSilent (Node.isSilent_of_isConstantForm (constant at_
            inside))] at declares
          cases declares
        · rw [Bool.not_eq_true] at inside
          rcases linked.binds_or_declarator declares within inside with binds | isDeclarator
          · exact free binds
          · have form := constant id Tree.isWithin_self
            have isDeclarator := steady.wellBound.declarator isDeclarator
            cases shape : p.tree.node id <;> simp_all [Node.isConstantForm, Node.isDeclarator]
      simp only [absent, Option.bind_none]

/--
Wherever the expression for a value stands, it has that value, if the global names in it mean
nothing. -/
theorem Steady.evaluate?_of_spelled (steady : p.Steady) (attached : p.isAttached id = true)
    (free : ¬p.tree.Binds id) (spelled : Spelled p.tree v id) (keyed : v.Keyed)
    (shallow : v.nesting ≤ 63) (unbound : ∀ name ∈ v.globals, p.isUnbound id name = true) :
    p.evaluate? id = some v :=
  evaluateWithin_of_spelled (steady.global_of_spelled attached free spelled unbound) v keyed
    Tree.isWithin_self spelled (by omega)

/-- The expression for a value has the value wherever it takes the place of another expression, and
its value written down once more agrees with it. Zeros keep their sign, and there is one NaN. -/
theorem encode_round_trip (reached : p.Reached) (verified : p.verify = .ok ())
    (wellBound : p.tree.WellBound) (attached : p.isAttached target = true)
    (notRoot : target ≠ p.root) (free : ¬p.tree.Binds target)
    (plain : (p.node target).isDeclarator = false) (keyed : v.Keyed)
    (shallow : v.nesting ≤ 63) :
    ∃ after, Program.replace { p with tree := (v.encode p.tree).2 } target (v.encode p.tree).1 =
        .ok ((v.encode p.tree).1, after) ∧
      after.isAttached (v.encode p.tree).1 = true ∧
      ((∀ name ∈ ["undefined", "NaN", "Infinity"],
        after.isUnbound (v.encode p.tree).1 name = true) →
        after.evaluate? (v.encode p.tree).1 = some v ∧
        ∀ x, after.evaluate? (v.encode p.tree).1 = some x →
          (x.encode after.tree).2.agrees (x.encode after.tree).1 (v.encode p.tree).1 = true) := by
  have steady : p.Steady := ⟨reached.sound verified, wellBound⟩
  have start := Tree.Building.start steady.linked steady.wellBound steady.nonempty
  have building := Tree.makes_encode v p.tree [] p.tree start
  have spelledGrown := spelled_encode v start
  have termGrown := (Tree.Assembly.start steady.linked steady.nonempty).term_encode v
  obtain ⟨after, done, afterSteady, attachedAfter, freeAfter, -, -, edited, possible⟩ :=
    steady.exists_replace_encode attached notRoot free plain v
  generalize (v.encode p.tree).1 = placed at *
  generalize (v.encode p.tree).2 = grown at *
  have linked := building.grows.linked
  have loose := building.loose placed (List.mem_cons_self ..)
  have spelled := spelled_of_edited linked edited possible spelledGrown
  refine ⟨after, done, attachedAfter, fun unbound => ?_⟩
  have evaluated := afterSteady.evaluate?_of_spelled attachedAfter freeAfter spelled keyed shallow
    fun name member => unbound name (mem_globals v member)
  refine ⟨evaluated, fun x again => ?_⟩
  obtain rfl : v = x := Option.some.inj (evaluated.symm.trans again)
  -- Writing it down once more leaves the expression as it is.
  have assembly := Tree.Assembly.start afterSteady.linked afterSteady.nonempty
  have grows := ((Tree.workshop_assembly after.tree).encode v [] after.tree assembly).grows
  apply Tree.agrees_of_term_eq
  calc (v.encode after.tree).2.term (v.encode after.tree).1
    _ = v.term := assembly.term_encode v
    _ = grown.term placed := termGrown.symm
    _ = after.tree.term placed := (edited.term_eq linked possible).symm
    _ = (v.encode after.tree).2.term placed :=
      (grows.term_eq afterSteady.linked (edited.allocated.mpr loose.allocated)).symm

/-! ### An instance -/

theorem Placing.isUnbound_placed {grown : Tree} {after : Program} {name : String}
    (placing : p.Placing target v placed grown after) (unbound : p.isUnbound target name = true) :
    after.isUnbound placed name = true := by
  have attached := placing.isWithin_placed
  rw [isAttached_eq placing.afterSteady.linked placing.afterSteady.isTop.top] at attached
  rw [placing.afterSteady.sound.isUnbound_iff attached, placing.sight_of_within Tree.isWithin_self]
  apply placing.look?_eq_none
  rwa [← placing.steady.sound.isUnbound_iff placing.attached]

/-- The tree of `0;`. -/
def zeroStatement : Tree :=
  ⟨#[⟨.literal (.number 0.0), some ⟨1⟩⟩, ⟨.expressionStatement ⟨0⟩, some ⟨2⟩⟩,
    ⟨.program [⟨1⟩], none⟩]⟩

/-- The value of `[-1.5, undefined, NaN, { "a b": -0, c: "" }]`. -/
def mixedValue : Value :=
  .array [.number (-1.5), .undefined, .number nan, .object [("a b", .number (-0.0)),
    ("c", .string "")]]

theorem keyed_mixedValue : mixedValue.Keyed := by
  refine .array fun item member => ?_
  simp only [List.mem_cons, List.not_mem_nil, or_false] at member
  rcases member with rfl | rfl | rfl | rfl
  · exact .primitive rfl
  · exact .primitive rfl
  · exact .primitive rfl
  · refine .object (by decide) fun entry member => ?_
    simp only [List.mem_cons, List.not_mem_nil, or_false] at member
    rcases member with rfl | rfl <;> exact .primitive rfl

/-- An array of numbers, `undefined` and an object goes through the place of a zero and back. -/
theorem exists_encode_round_trip : ∃ p after, ofTree zeroStatement ⟨2⟩ = .ok p ∧
    Program.replace { p with tree := (mixedValue.encode p.tree).2 } ⟨0⟩
      (mixedValue.encode p.tree).1 =
        .ok ((mixedValue.encode p.tree).1, after) ∧
      after.evaluate? (mixedValue.encode p.tree).1 = some mixedValue ∧
        (mixedValue.encode after.tree).2.agrees (mixedValue.encode after.tree).1
          (mixedValue.encode p.tree).1 = true := by
  obtain ⟨scopes, made, steady⟩ := exists_steady zeroStatement ⟨2⟩
    (Tree.linked_of_checks (by decide)) ⟨by decide, by decide⟩
    (Tree.wellBound_of_bindsWell (by decide)) rfl
  have free : ¬zeroStatement.Binds ⟨0⟩ := steady.not_binds_of_not_isPattern rfl
  have unbound : ∀ name ∈ ["undefined", "NaN", "Infinity"],
      Program.isUnbound ⟨zeroStatement, ⟨2⟩, scopes, false⟩ ⟨0⟩ name = true := by
    have attached : zeroStatement.isWithin ⟨0⟩ ⟨2⟩ = true := by decide
    simp only [steady.sound.isUnbound_iff attached]
    change ∀ name ∈ ["undefined", "NaN", "Infinity"],
      (zeroStatement.lexicon ⟨2⟩).look? (zeroStatement.sight ⟨0⟩) name = none
    decide
  obtain ⟨after, done, -, round⟩ := encode_round_trip (.made steady.linked steady.isTop made)
    steady.sound.verify steady.wellBound rfl (by simp) free rfl keyed_mixedValue (by decide)
  obtain ⟨other, sameDone, placing⟩ := steady.exists_placing rfl free rfl mixedValue
  obtain rfl : other = after := by
    have same := sameDone.symm.trans done
    cases same
    rfl
  obtain ⟨evaluated, again⟩ :=
    round fun name member => placing.isUnbound_placed (unbound name member)
  exact ⟨_, other, made, done, evaluated, again _ evaluated⟩

end Program

end Unravel
