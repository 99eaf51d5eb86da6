import Unravel.Proofs.Eval.Step
import Unravel.Proofs.Numeral.Exact
import Unravel.Proofs.Scope.Build
import Unravel.Simplify.Folding

/-!
What the expression for a value looks like in a store (`Value.Spelled`), and which values such an
expression can give back: those whose objects have distinct keys (`Value.Keyed`).

`Value.encode` builds an expression of that form, which needs the global names in `Value.globals`.

The expression for a value has that value, where its global names are bound to nothing
(`Program.evaluateWithin_of_spelled`).
-/

namespace Unravel

namespace Node

variable {α : Type}

/-- Whether a node can be part of the expression for a value. -/
def isConstantForm : Node α → Bool
  | identifier _ | literal _ | unary .. | array _ | object _ | property .. => true
  | _ => false

end Node

namespace Value

/-- A value whose objects do not have a key twice. -/
inductive Keyed : Value → Prop
  | primitive {v : Value} (isPrimitive : v.isPrimitive = true) : Keyed v
  | array {items : List Value} (keyed : ∀ item ∈ items, Keyed item) : Keyed (array items)
  | object {entries : List (String × Value)} (distinct : (entries.map (·.1)).Nodup)
      (keyed : ∀ entry ∈ entries, Keyed entry.2) : Keyed (object entries)

mutual

/-- How many arrays and objects are nested in one another. -/
def nesting : Value → Nat
  | array items => itemsNesting items + 1
  | object entries => entriesNesting entries + 1
  | _ => 0

def itemsNesting : List Value → Nat
  | [] => 0
  | item :: rest => max (nesting item) (itemsNesting rest)

def entriesNesting : List (String × Value) → Nat
  | [] => 0
  | (_, value) :: rest => max (nesting value) (entriesNesting rest)

end

def numberGlobals (x : Float) : List String :=
  if x.isNaN then ["NaN"] else if x.isInf then ["Infinity"] else []

mutual

/-- The global names in the expression for a value. -/
def globals : Value → List String
  | undefined => ["undefined"]
  | number x => numberGlobals x
  | array items => itemsGlobals items
  | object entries => entriesGlobals entries
  | _ => []

def itemsGlobals : List Value → List String
  | [] => []
  | item :: rest => globals item ++ itemsGlobals rest

def entriesGlobals : List (String × Value) → List String
  | [] => []
  | (_, value) :: rest => globals value ++ entriesGlobals rest

end

theorem mem_numberGlobals {x : Float} {name : String} (member : name ∈ numberGlobals x) :
    name ∈ ["undefined", "NaN", "Infinity"] := by
  unfold numberGlobals at member
  split at member
  · simp_all
  · split at member <;> simp_all

mutual

theorem mem_globals {name : String} :
    (v : Value) → name ∈ v.globals → name ∈ ["undefined", "NaN", "Infinity"]
  | .undefined, member => by
    rw [globals, List.mem_singleton] at member
    simp [member]
  | .null, member | .bool _, member | .string _, member => by cases member
  | .number x, member => mem_numberGlobals member
  | .array items, member => mem_itemsGlobals items member
  | .object entries, member => mem_entriesGlobals entries member

theorem mem_itemsGlobals {name : String} :
    (items : List Value) → name ∈ itemsGlobals items → name ∈ ["undefined", "NaN", "Infinity"]
  | [], member => by cases member
  | item :: rest, member => (List.mem_append.mp member).elim (mem_globals item)
    (mem_itemsGlobals rest)

theorem mem_entriesGlobals {name : String} : (entries : List (String × Value)) →
    name ∈ entriesGlobals entries → name ∈ ["undefined", "NaN", "Infinity"]
  | [], member => by cases member
  | (_, value) :: rest, member =>
    (List.mem_append.mp member).elim (mem_globals value) (mem_entriesGlobals rest)

end

mutual

theorem neededGlobal?_eq : (v : Value) → v.neededGlobal? = v.globals.head?
  | .undefined | .null | .bool _ | .string _ => rfl
  | .number x => by
    rw [neededGlobal?, globals, numberGlobals]
    split
    · rfl
    · split <;> rfl
  | .array items => by rw [neededGlobal?, globals, ofItems_eq]
  | .object entries => by rw [neededGlobal?, globals, ofEntries_eq]

theorem ofItems_eq : (items : List Value) → neededGlobal?.ofItems items = (itemsGlobals items).head?
  | [] => rfl
  | item :: rest => by
    rw [neededGlobal?.ofItems, itemsGlobals, neededGlobal?_eq item, ofItems_eq rest,
      List.head?_append, Option.orElse_eq_or]

theorem ofEntries_eq :
    (entries : List (String × Value)) →
    neededGlobal?.ofEntries entries = (entriesGlobals entries).head?
  | [] => rfl
  | (_, value) :: rest => by
    rw [neededGlobal?.ofEntries, entriesGlobals, neededGlobal?_eq value, ofEntries_eq rest,
      List.head?_append, Option.orElse_eq_or]

end

def SpellsNumber (t : Tree) (x : Float) (id : NodeId) : Prop :=
  if x.isNaN then t.node id = .identifier "NaN"
  else
    let spelled (magnitude : NodeId) : Prop := t.node magnitude =
      if x.isInf then .identifier "Infinity"
      else .literal (.number (Double.negated x (Double.isNegative x)))
    if Double.isNegative x then ∃ magnitude, t.node id = .unary .minus magnitude ∧ spelled magnitude
    else spelled id

mutual

/-- The node is the root of an expression for the value. -/
def Spelled (t : Tree) : Value → NodeId → Prop
  | undefined, id => t.node id = .identifier "undefined"
  | null, id => t.node id = .literal .null
  | bool b, id => t.node id = .literal (.boolean b)
  | number x, id => SpellsNumber t x id
  | string s, id => t.node id = .literal (.string s none)
  | array items, id => ∃ elements, t.node id = .array elements ∧ ItemsSpelled t items elements
  | object entries, id =>
    ∃ properties, t.node id = .object properties ∧ EntriesSpelled t entries properties

def ItemsSpelled (t : Tree) : List Value → List NodeId → Prop
  | [], elements => elements = []
  | item :: rest, elements =>
    ∃ first others, elements = first :: others ∧ Spelled t item first ∧ ItemsSpelled t rest others

def EntriesSpelled (t : Tree) : List (String × Value) → List NodeId → Prop
  | [], properties => properties = []
  | (name, value) :: rest, properties =>
    ∃ first others key spelled, properties = first :: others ∧
      t.node first = .property key spelled false ∧
      (t.node key = .identifier name ∨ t.node key = .literal (.string name none)) ∧
      Spelled t value spelled ∧ EntriesSpelled t rest others

end

section Congr

variable {t after : Tree} {keep : NodeId → Prop}

structure Kept (t after : Tree) (keep : NodeId → Prop) : Prop where
  closed {id : NodeId} (kept : keep id) : ∀ child ∈ (t.node id).children, keep child
  same {id : NodeId} (kept : keep id) : after.node id = t.node id

theorem SpellsNumber.congr (region : Kept t after keep) {x : Float} {id : NodeId} (kept : keep id)
    (spells : SpellsNumber t x id) : SpellsNumber after x id := by
  unfold SpellsNumber at spells ⊢
  split at spells <;> rename_i isNaN
  · rwa [if_pos isNaN, region.same kept]
  · rw [if_neg isNaN]
    dsimp only at spells ⊢
    split at spells <;> rename_i isNegative
    · obtain ⟨magnitude, shape, spelled⟩ := spells
      rw [if_pos isNegative]
      refine ⟨magnitude, by rwa [region.same kept], ?_⟩
      rwa [region.same (region.closed kept magnitude (by simp [shape, Node.children]))]
    · rwa [if_neg isNegative, region.same kept]

mutual

theorem Spelled.congr (region : Kept t after keep) :
    (v : Value) → {id : NodeId} → keep id → Spelled t v id →
    Spelled after v id
  | .undefined, id, kept, spelled | .null, id, kept, spelled | .bool _, id, kept, spelled
  | .string _, id, kept, spelled => by
    rw [Spelled] at spelled ⊢
    rwa [region.same kept]
  | .number x, id, kept, spelled => by
    rw [Spelled] at spelled ⊢
    exact spelled.congr region kept
  | .array items, id, kept, spelled => by
    rw [Spelled] at spelled ⊢
    obtain ⟨elements, shape, spelled⟩ := spelled
    refine ⟨elements, by rwa [region.same kept], ItemsSpelled.congr region items ?_ spelled⟩
    simpa [shape, Node.children] using region.closed kept
  | .object entries, id, kept, spelled => by
    rw [Spelled] at spelled ⊢
    obtain ⟨properties, shape, spelled⟩ := spelled
    refine ⟨properties, by rwa [region.same kept], EntriesSpelled.congr region entries ?_ spelled⟩
    simpa [shape, Node.children] using region.closed kept

theorem ItemsSpelled.congr (region : Kept t after keep) :
    (items : List Value) → {elements : List NodeId} →
    (∀ element ∈ elements, keep element) → ItemsSpelled t items elements →
    ItemsSpelled after items elements
  | [], _, _, spelled => by rwa [ItemsSpelled] at spelled ⊢
  | item :: rest, _, kept, spelled => by
    rw [ItemsSpelled] at spelled ⊢
    obtain ⟨first, others, rfl, spelledFirst, spelledRest⟩ := spelled
    rw [List.forall_mem_cons] at kept
    exact ⟨first, others, rfl, Spelled.congr region item kept.1 spelledFirst,
      ItemsSpelled.congr region rest kept.2 spelledRest⟩

theorem EntriesSpelled.congr (region : Kept t after keep) :
    (entries : List (String × Value)) → {properties :
      List NodeId} →
    (∀ property ∈ properties, keep property) → EntriesSpelled t entries properties →
      EntriesSpelled after entries properties
  | [], _, _, spelled => by rwa [EntriesSpelled] at spelled ⊢
  | (name, value) :: rest, _, kept, spelled => by
    rw [EntriesSpelled] at spelled ⊢
    obtain ⟨first, others, key, spelledAs, rfl, shape, isKey, spelledValue, spelledRest⟩ := spelled
    rw [List.forall_mem_cons] at kept
    have below := region.closed kept.1
    simp only [shape, Node.children, List.mem_cons, List.not_mem_nil, or_false, forall_eq_or_imp,
      forall_eq] at below
    refine ⟨first, others, key, spelledAs, rfl, by rwa [region.same kept.1], ?_,
      Spelled.congr region value below.2 spelledValue, EntriesSpelled.congr region rest
        kept.2 spelledRest⟩
    rwa [region.same below.1]

end

end Congr

/-! ### The nodes of an expression -/

section Parts

variable {t : Tree} {names more : List String}

/--
A node of an expression for a value: its identifiers are some global names and the keys of objects.
-/
structure IsConstantPart (t : Tree) (names : List String) (id : NodeId) : Prop where
  form : (t.node id).isConstantForm = true
  spelled :
    ∀ name, t.node id = .identifier name → name ∈ names ∨ ∃ parent, id ∈ (t.node parent).part .label

theorem IsConstantPart.mono {id : NodeId} (isPart : IsConstantPart t names id)
    (fewer : ∀ name ∈ names, name ∈ more) : IsConstantPart t more id :=
  ⟨isPart.form, fun name shape => (isPart.spelled name shape).imp_left (fewer name)⟩

theorem isConstantPart_of_leaf {id : NodeId} {form : Node NodeId} (shape : t.node id = form)
    (isLeaf : form.children = []) (isForm : form.isConstantForm = true)
    (named : ∀ name, form = .identifier name → name ∈ names) (limit : Nat) :
    ∀ part ∈ t.descendantsWithin limit id, IsConstantPart t names part := by
  intro part member
  cases limit with
  | zero => cases member
  | succ limit =>
    rw [Tree.descendantsWithin, shape, isLeaf, List.flatMap_nil, List.mem_singleton] at member
    rw [member]
    exact ⟨by rwa [shape], fun name found => .inl (named name (shape.symm.trans found))⟩

theorem isConstantPart_of_children {id : NodeId} {limit : Nat}
    (isForm : (t.node id).isConstantForm = true) (notNamed : ∀ name, t.node id ≠ .identifier name)
    (below : ∀ child ∈ (t.node id).children, ∀ part ∈ t.descendantsWithin limit child,
      IsConstantPart t names part) :
    ∀ part ∈ t.descendantsWithin (limit + 1) id, IsConstantPart t names part := by
  intro part member
  rw [Tree.descendantsWithin, List.mem_cons, List.mem_flatMap] at member
  rcases member with rfl | ⟨child, held, inside⟩
  · exact ⟨isForm, fun name found => absurd found (notNamed name)⟩
  · exact below child held part inside

theorem SpellsNumber.parts {x : Float} {id : NodeId} (spells : SpellsNumber t x id) (limit : Nat) :
    ∀ part ∈ t.descendantsWithin limit id, IsConstantPart t (numberGlobals x) part := by
  unfold SpellsNumber at spells
  unfold numberGlobals
  split at spells <;> rename_i isNaN
  · refine isConstantPart_of_leaf spells rfl rfl (fun name found => ?_) limit
    rw [if_pos isNaN, List.mem_singleton]
    exact (Node.identifier.inj found).symm
  · have magnitude {id : NodeId} (shape : t.node id = if x.isInf then .identifier "Infinity"
        else .literal (.number (Double.negated x (Double.isNegative x)))) (limit : Nat) :
        ∀ part ∈ t.descendantsWithin limit id,
          IsConstantPart t (if x.isNaN then ["NaN"] else if x.isInf then ["Infinity"] else [])
            part := by
      rw [if_neg isNaN]
      split at shape <;> rename_i isInf
      · exact isConstantPart_of_leaf shape rfl rfl (by simp [isInf]) limit
      · exact isConstantPart_of_leaf shape rfl rfl (by simp) limit
    dsimp only at spells
    split at spells
    · obtain ⟨inner, shape, spelled⟩ := spells
      cases limit with
      | zero => simp [Tree.descendantsWithin]
      | succ limit =>
        refine isConstantPart_of_children (by rw [shape]; rfl) (by simp [shape]) ?_
        simpa [shape, Node.children] using magnitude spelled limit
    · exact magnitude spells limit

mutual

theorem Spelled.parts : (v : Value) → {id : NodeId} → Spelled t v id → (limit : Nat) →
    ∀ part ∈ t.descendantsWithin limit id, IsConstantPart t v.globals part
  | .undefined, _, spelled, limit | .null, _, spelled, limit | .bool _, _, spelled, limit
  | .string _, _, spelled, limit => by
    rw [Spelled] at spelled
    exact isConstantPart_of_leaf spelled rfl rfl (by simp [globals]) limit
  | .number x, _, spelled, limit => by
    rw [Spelled] at spelled
    exact spelled.parts limit
  | .array _, _, _, 0 | .object _, _, _, 0 => by simp [Tree.descendantsWithin]
  | .array items, _, spelled, limit + 1 => by
    rw [Spelled] at spelled
    obtain ⟨elements, shape, spelled⟩ := spelled
    refine isConstantPart_of_children (by rw [shape]; rfl) (by simp [shape]) ?_
    rw [shape]
    exact ItemsSpelled.parts items spelled limit
  | .object entries, _, spelled, limit + 1 => by
    rw [Spelled] at spelled
    obtain ⟨properties, shape, spelled⟩ := spelled
    refine isConstantPart_of_children (by rw [shape]; rfl) (by simp [shape]) ?_
    rw [shape]
    exact EntriesSpelled.parts entries spelled limit

theorem ItemsSpelled.parts : (items : List Value) → {elements : List NodeId} →
    ItemsSpelled t items elements → (limit : Nat) → ∀ element ∈ elements,
      ∀ part ∈ t.descendantsWithin limit element, IsConstantPart t (itemsGlobals items) part
  | [], _, spelled, _ => by
    rw [ItemsSpelled] at spelled
    simp [spelled]
  | item :: rest, _, spelled, limit => by
    rw [ItemsSpelled] at spelled
    obtain ⟨first, others, rfl, spelledFirst, spelledRest⟩ := spelled
    rw [List.forall_mem_cons, itemsGlobals]
    refine ⟨fun part inside => ?_, fun element held part inside => ?_⟩
    · exact (Spelled.parts item spelledFirst limit part inside).mono fun _ => List.mem_append_left _
    · exact (ItemsSpelled.parts rest spelledRest limit element held part inside).mono
        fun _ => List.mem_append_right _

theorem EntriesSpelled.parts : (entries : List (String × Value)) → {properties : List NodeId} →
    EntriesSpelled t entries properties → (limit : Nat) → ∀ property ∈ properties,
      ∀ part ∈ t.descendantsWithin limit property, IsConstantPart t (entriesGlobals entries) part
  | [], _, spelled, _ => by
    rw [EntriesSpelled] at spelled
    simp [spelled]
  | _ :: _, _, _, 0 => by simp [Tree.descendantsWithin]
  | (name, value) :: rest, _, spelled, limit + 1 => by
    rw [EntriesSpelled] at spelled
    obtain ⟨first, others, key, spelledAs, rfl, shape, isKey, spelledValue, spelledRest⟩ := spelled
    rw [List.forall_mem_cons, entriesGlobals]
    refine ⟨isConstantPart_of_children (by rw [shape]; rfl) (by simp [shape]) ?_,
      fun property held part inside => ?_⟩
    · have isLabel : key ∈ (t.node first).part .label := by simp [shape, Node.part]
      simp only [shape, Node.children, List.forall_mem_cons, List.not_mem_nil,
        false_imp_iff, implies_true, and_true]
      refine ⟨fun part inside => ?_, fun part inside => ?_⟩
      · cases limit with
        | zero => cases inside
        | succ limit =>
          rcases isKey with isKey | isKey <;>
            rw [Tree.descendantsWithin, isKey, Node.children, List.flatMap_nil, List.mem_singleton]
              at inside
              <;>
            rw [inside] <;> exact ⟨by rw [isKey]; rfl, fun _ _ => .inr ⟨first, isLabel⟩⟩
      · exact (Spelled.parts value spelledValue limit part inside).mono
          fun _ => List.mem_append_left _
    · exact (EntriesSpelled.parts rest spelledRest (limit + 1) property held part inside).mono
        fun _ => List.mem_append_right _

end

end Parts

/-! ### What encoding builds -/

section Encode

variable {t mid after : Tree} {held : List NodeId}

theorem Kept.trans {keep keep' : NodeId → Prop} (first : Kept t mid keep)
    (second : Kept mid after keep') (fewer : ∀ id, keep id → keep' id) : Kept t after keep where
  closed := first.closed
  same kept := (second.same (fewer _ kept)).trans (first.same kept)

theorem Kept.of_grows (linked : t.Linked) (grows : t.Grows after) : Kept t after t.Allocated where
  closed _ _ member := Tree.allocated_of_parent? (linked.mem_children.mp member)
  same := grows.node

theorem Kept.alloc (linked : t.Linked) (node : Node NodeId) :
    Kept t (Tree.alloc node t).2 t.Allocated where
  closed _ _ member := Tree.allocated_of_parent? (linked.mem_children.mp member)
  same {id} allocated := by
    rw [Tree.node_alloc, if_neg]
    rintro rfl
    exact t.not_allocated_next allocated

theorem Kept.of_makes {α : Type} {made : α → List NodeId} {action : StateM Tree α}
    (makes : Tree.Makes [] made action) (building : t.Building held mid) :
    Kept mid (action mid).2 mid.Allocated :=
  .of_grows building.grows.linked
    (makes mid [] mid (.start building.grows.linked building.wellBound building.nonempty)).grows

theorem node_next (node : Node NodeId) :
    (Tree.alloc node t).2.node (Tree.alloc node t).1 = node := by
  rw [Tree.node_alloc]
  exact if_pos rfl

theorem node_previous (node next : Node NodeId) :
    (Tree.alloc next (Tree.alloc node t).2).2.node (Tree.alloc node t).1 = node := by
  rw [Tree.node_alloc, if_neg, node_next]
  rw [Tree.size_alloc]
  change ¬(⟨t.size⟩ : NodeId) = ⟨t.size + 1⟩
  simp

theorem spelled_encodeNumber (x : Float) (t : Tree) :
    SpellsNumber (Tree.encodeNumber x t).2 x (Tree.encodeNumber x t).1 := by
  unfold SpellsNumber Tree.encodeNumber
  split
  · exact node_next _
  · dsimp only
    by_cases isInf : x.isInf = true <;> by_cases isNegative : Double.isNegative x = true <;>
      simp only [isInf, isNegative, if_true, if_false, Bool.false_eq_true]
    · exact ⟨⟨t.size⟩, node_next _, node_previous _ _⟩
    · exact node_next _
    · exact ⟨⟨t.size⟩, node_next _, node_previous _ _⟩
    · exact node_next _

theorem node_encodeProperty (name : String) (value : NodeId) (t : Tree) : ∃ key,
    (Tree.encodeProperty name value t).2.node (Tree.encodeProperty name value t).1 =
      .property key value false ∧
    ((Tree.encodeProperty name value t).2.node key = .identifier name ∨
      (Tree.encodeProperty name value t).2.node key = .literal (.string name none)) := by
  refine ⟨⟨t.size⟩, ?_⟩
  unfold Tree.encodeProperty
  split
  · exact ⟨node_next _, .inl (node_previous _ _)⟩
  · exact ⟨node_next _, .inr (node_previous _ _)⟩

theorem kept_encodeProperty {name : String} {value : NodeId} (linked : t.Linked) :
    Kept t (Tree.encodeProperty name value t).2 t.Allocated where
  closed _ _ member := Tree.allocated_of_parent? (linked.mem_children.mp member)
  same {id} allocated := by
    have later {node next : Node NodeId} :
        (Tree.alloc next (Tree.alloc node t).2).2.node id = t.node id := by
      rw [Tree.node_alloc, if_neg, Tree.node_alloc, if_neg]
      · rintro rfl
        exact t.not_allocated_next allocated
      · rintro rfl
        rw [Tree.size_alloc] at allocated
        exact absurd allocated (by simp [Tree.Allocated])
    unfold Tree.encodeProperty
    split
    · exact later
    · exact later

theorem allocated_encodeProperty {name : String} {value id : NodeId} (allocated : t.Allocated id) :
    (Tree.encodeProperty name value t).2.Allocated id := by
  have later {node next : Node NodeId} : (Tree.alloc next (Tree.alloc node t).2).2.Allocated id :=
    Tree.allocated_alloc.mpr (.inl (Tree.allocated_alloc.mpr (.inl allocated)))
  unfold Tree.encodeProperty
  split
  · exact later
  · exact later

mutual

theorem spelled_encode : (v : Value) → {held : List NodeId} → {mid : Tree} → t.Building held mid →
    Spelled (v.encode mid).2 v (v.encode mid).1
  | .undefined, _, _, _ | .null, _, _, _ | .bool _, _, _, _ | .string _, _, _, _ => by
    rw [Spelled, encode]
    exact node_next _
  | .number x, _, mid, _ => by
    rw [Spelled, encode]
    exact spelled_encodeNumber x mid
  | .array items, held, mid, building => by
    rw [Spelled, encode]
    have made := Tree.makes_encodeItems items t held mid building
    exact ⟨_, node_next _, ItemsSpelled.congr (.alloc made.grows.linked _) items
      (fun element member => (made.loose element (List.mem_append_left _ member)).allocated)
      (spelled_encodeItems items building)⟩
  | .object entries, held, mid, building => by
    rw [Spelled, encode]
    have made := Tree.makes_encodeEntries entries t held mid building
    exact ⟨_, node_next _, EntriesSpelled.congr (.alloc made.grows.linked _) entries
      (fun property member => (made.loose property (List.mem_append_left _ member)).allocated)
      (spelled_encodeEntries entries building)⟩

theorem spelled_encodeItems : (items : List Value) → {held : List NodeId} → {mid : Tree} →
    t.Building held mid → ItemsSpelled (encodeItems items mid).2 items (encodeItems items mid).1
  | [], _, _, _ => rfl
  | item :: rest, held, mid, building => by
    rw [ItemsSpelled, encodeItems]
    have first := Tree.makes_encode item t held mid building
    have allocated := (first.loose _ (List.mem_cons_self ..)).allocated
    have grown := Kept.of_makes (Tree.makes_encodeItems rest) first
    exact ⟨_, _, rfl, Spelled.congr grown item allocated (spelled_encode item building),
      spelled_encodeItems rest first⟩

theorem spelled_encodeEntries :
    (entries : List (String × Value)) → {held : List NodeId} → {mid : Tree} →
    t.Building held mid →
      EntriesSpelled (encodeEntries entries mid).2 entries (encodeEntries entries mid).1
  | [], _, _, _ => rfl
  | (name, value) :: rest, held, mid, building => by
    rw [EntriesSpelled, encodeEntries]
    have first := Tree.makes_encode value t held mid building
    have second := Tree.makes_encodeProperty name (value.encode mid).1 t held _ first
    have grown := Kept.of_makes (Tree.makes_encodeEntries rest) second
    obtain ⟨key, shape, isKey⟩ := node_encodeProperty name (value.encode mid).1 (value.encode mid).2
    have allocated := (second.loose _ (List.mem_cons_self ..)).allocated
    have keyAllocated := grown.closed allocated key (by simp [shape, Node.children])
    have valueAllocated := (first.loose _ (List.mem_cons_self ..)).allocated
    refine ⟨_, _, key, _, rfl, (grown.same allocated).trans shape, ?_, ?_,
      spelled_encodeEntries rest second⟩
    · exact isKey.imp (grown.same keyAllocated).trans (grown.same keyAllocated).trans
    · exact Spelled.congr ((kept_encodeProperty first.grows.linked).trans grown fun id =>
        allocated_encodeProperty) value
        valueAllocated (spelled_encode value building)

end

end Encode

end Value

/-! ### What the expression for a value evaluates to -/

namespace Value

theorem setEntry_of_notMem {name : String} {value : Value} {entries : List (String × Value)}
    (fresh : name ∉ entries.map (·.1)) :
    setEntry name value entries = entries ++ [(name, value)] := by
  induction entries with
  | nil => rfl
  | cons entry rest induction =>
    obtain ⟨key, other⟩ := entry
    rw [List.map_cons, List.mem_cons, not_or] at fresh
    rw [setEntry, if_neg (Ne.symm fresh.1), induction fresh.2, List.cons_append]

theorem Keyed.of_mem {items : List Value} (keyed : Keyed (Value.array items)) :
    ∀ item ∈ items, Keyed item := by
  cases keyed with
  | primitive isPrimitive => cases isPrimitive
  | array keyed => exact keyed

theorem Keyed.of_mem_entries {entries : List (String × Value)}
    (keyed : Keyed (Value.object entries)) :
    (entries.map (·.1)).Nodup ∧ ∀ entry ∈ entries, Keyed entry.2 := by
  cases keyed with
  | primitive isPrimitive => cases isPrimitive
  | object distinct keyed => exact ⟨distinct, keyed⟩

end Value

namespace Program

open Value

variable {p : Program} {keep : NodeId → Prop}

/-- A part of a program, with all that is below it, where no identifier belongs to a binding. -/
structure Global (p : Program) (keep : NodeId → Prop) : Prop where
  closed {id : NodeId} (kept : keep id) : ∀ child ∈ (p.node id).children, keep child
  unbound {id : NodeId} (kept : keep id) : p.bindingOf? id = none

theorem evaluateStep_global {eval : NodeId → Option Value} {id : NodeId} {name : String} {v : Value}
    (global : p.Global keep) (kept : keep id) (shape : p.node id = .identifier name)
    (isGlobal : globalValue? name = some v) : p.evaluateStep eval id = some v := by
  rw [evaluateStep, shape]
  dsimp only
  rw [global.unbound kept, isGlobal]

theorem evaluateWithin_number (global : p.Global keep) {x : Float} {id : NodeId} {limit : Nat}
    (kept : keep id) (spells : SpellsNumber p.tree x id) (enough : 2 ≤ limit) :
    p.evaluateWithin limit id = some (.number x) := by
  obtain ⟨limit, rfl⟩ := Nat.exists_eq_add_of_le' enough
  rw [show limit + 2 = (limit + 1) + 1 from rfl, evaluateWithin_succ]
  unfold SpellsNumber at spells
  split at spells <;> rename_i isNaN
  · rw [evaluateStep_global global kept spells rfl, Double.eq_nan isNaN]
  · -- A magnitude has its value at any limit.
    have magnitude {id : NodeId} (kept : keep id) (eval : NodeId → Option Value)
        (spelled : p.tree.node id = if x.isInf then .identifier "Infinity"
          else .literal (.number (Double.negated x (Double.isNegative x)))) :
        p.evaluateStep eval id = some (.number (Double.negated x (Double.isNegative x))) := by
      split at spelled <;> rename_i isInf
      · have same : Double.negated x (Double.isNegative x) = infinity := by
          rw [Double.eq_infinity isInf]
          cases Double.isNegative x <;> decide
        rw [same]
        exact evaluateStep_global global kept spelled rfl
      · rw [evaluateStep, node, spelled]
        rfl
    dsimp only at spells
    split at spells <;> rename_i isNegative
    · obtain ⟨inner, shape, spelled⟩ := spells
      have keptInner : keep inner := global.closed kept inner (by simp [node, shape, Node.children])
      have value := magnitude keptInner (p.evaluateWithin limit) spelled
      rw [← evaluateWithin_succ] at value
      rw [evaluateStep, node, shape]
      simp only [value, isNegative, Double.negated, if_true, Option.bind_some,
        UnaryOp.result?, toNumber, Double.neg_neg]
      rfl
    · rw [Bool.not_eq_true] at isNegative
      rw [magnitude kept _ spells, isNegative]
      rfl

mutual

theorem evaluateWithin_of_spelled (global : p.Global keep) : (v : Value) → Keyed v → {id : NodeId} →
    keep id → Spelled p.tree v id → {limit : Nat} → v.nesting + 2 ≤ limit →
    p.evaluateWithin limit id = some v
  | .undefined, _, id, kept, spelled, limit + 1, _ => by
    rw [Spelled] at spelled
    rw [evaluateWithin_succ]
    exact evaluateStep_global global kept spelled rfl
  | .null, _, id, _, spelled, limit + 1, _ | .bool _, _, id, _, spelled, limit + 1, _
  | .string _, _, id, _, spelled, limit + 1, _ => by
    rw [Spelled] at spelled
    rw [evaluateWithin_succ, evaluateStep, node, spelled]
    rfl
  | .number x, _, id, kept, spelled, limit, enough => by
    rw [Spelled] at spelled
    rw [show (number x).nesting = 0 from rfl] at enough
    exact evaluateWithin_number global kept spelled enough
  | .array items, keyed, id, kept, spelled, limit + 1, enough => by
    rw [Spelled] at spelled
    rw [nesting] at enough
    obtain ⟨elements, shape, spelled⟩ := spelled
    have below := global.closed kept
    rw [node, shape, Node.children] at below
    rw [evaluateWithin_succ, evaluateStep, node, shape]
    dsimp only
    rw [mapM_of_spelled global items keyed.of_mem below spelled (by omega)]
    rfl
  | .object entries, keyed, id, kept, spelled, limit + 1, enough => by
    rw [Spelled] at spelled
    rw [nesting] at enough
    obtain ⟨properties, shape, spelled⟩ := spelled
    have below := global.closed kept
    rw [node, shape, Node.children] at below
    rw [evaluateWithin_succ, evaluateStep, node, shape]
    dsimp only
    rw [foldlM_of_spelled global entries keyed.of_mem_entries.2 below spelled (by omega) []
      (by simpa using keyed.of_mem_entries.1)]
    rfl

theorem mapM_of_spelled (global : p.Global keep) :
    (items : List Value) → (∀ item ∈ items, Keyed item) →
    {elements : List NodeId} → (∀ element ∈ elements, keep element) →
    ItemsSpelled p.tree items elements →
    {limit : Nat} → itemsNesting items + 2 ≤ limit →
    elements.mapM (p.evaluateWithin limit) = some items
  | [], _, elements, _, spelled, limit, _ => by
    rw [ItemsSpelled] at spelled
    rw [spelled]
    rfl
  | item :: rest, keyed, elements, kept, spelled, limit, enough => by
    rw [ItemsSpelled] at spelled
    rw [itemsNesting] at enough
    obtain ⟨first, others, rfl, spelledFirst, spelledRest⟩ := spelled
    rw [List.forall_mem_cons] at keyed kept
    rw [List.mapM_cons, evaluateWithin_of_spelled global item keyed.1 kept.1
      spelledFirst (by omega), mapM_of_spelled global rest keyed.2 kept.2 spelledRest (by omega)]
    rfl

theorem foldlM_of_spelled (global : p.Global keep) : (entries : List (String × Value)) →
    (∀ entry ∈ entries, Keyed entry.2) → {properties : List NodeId} →
    (∀ property ∈ properties, keep property) → EntriesSpelled p.tree entries properties →
    {limit : Nat} →
    entriesNesting entries + 2 ≤ limit → (known : List (String × Value)) →
    ((known ++ entries).map (·.1)).Nodup →
    properties.foldlM (p.evaluateEntry (p.evaluateWithin limit)) known = some (known ++ entries)
  | [], _, properties, _, spelled, limit, _, known, _ => by
    rw [EntriesSpelled] at spelled
    rw [spelled, List.append_nil]
    rfl
  | (name, value) :: rest, keyed, properties, kept, spelled, limit, enough, known, distinct => by
    rw [EntriesSpelled] at spelled
    rw [entriesNesting] at enough
    obtain ⟨first, others, key, spelledAs, rfl, shape, isKey, spelledValue, spelledRest⟩ := spelled
    rw [List.forall_mem_cons] at keyed kept
    have below := global.closed kept.1
    rw [node, shape] at below
    have isName : p.evaluateKey (p.evaluateWithin limit) key false = some name := by
      unfold evaluateKey node
      rcases isKey with isKey | isKey
      · rw [isKey]
      · rw [isKey]
        rfl
    have enoughValue : value.nesting + 2 ≤ limit := by omega
    have enoughRest : entriesNesting rest + 2 ≤ limit := by omega
    have isValue := evaluateWithin_of_spelled global value keyed.1
      (below spelledAs (by simp [Node.children])) spelledValue enoughValue
    have fresh : name ∉ known.map (·.1) := by
      rw [List.map_append, List.nodup_append] at distinct
      intro member
      exact distinct.2.2 name member name (by simp) rfl
    have entry : p.evaluateEntry (p.evaluateWithin limit) known first =
        some (known ++ [(name, value)]) := by
      rw [evaluateEntry, node, shape]
      dsimp only
      rw [isName, isValue, ← setEntry_of_notMem fresh]
      rfl
    rw [List.foldlM_cons, entry]
    have others := foldlM_of_spelled global rest keyed.2 kept.2 spelledRest enoughRest
      (known ++ [(name, value)]) (by simpa using distinct)
    rw [List.append_assoc] at others
    exact others

end

end Program

end Unravel
