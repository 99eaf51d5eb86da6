import Unravel.Proofs.Eval.Confined
import Unravel.Proofs.Eval.Keyed
import Unravel.Proofs.Eval.Outside

/-!
An expression with a value in the place of which the expression for the value is put. Every other
expression keeps its value, if it has one before and one afterwards
(`Program.same_value_after_folding`).

The induction is on the limit of the evaluation. A name with a value is the name of a variable that
is sure to be initialized, and such a variable is not declared in what goes out.
-/

namespace Unravel

namespace Program

variable {p after : Program} {target placed id base : NodeId} {v x y : Value}
  {grown : Tree} {limit : Nat} {name : String}

structure Folded (p : Program) (target : NodeId) (v : Value) (placed : NodeId) (grown : Tree)
    (after : Program) : Prop extends p.Placing target v placed grown after where
  made : ∃ limit, p.evaluateWithin limit target = some v
  unlabelled : ∀ parent, target ∉ (p.node parent).part .label
  unbound : ∀ name ∈ v.globals, p.isUnbound target name = true

/-! ### The same values -/

def memberResult (global? : Option String) (base? : Option Value) (key : String) : Option Value :=
  match global? with
  | some "Math" => (Builtin.mathConstant? key).map .number
  | some "Number" => (Builtin.numberConstant? key).map .number
  | some _ => none
  | none => base?.bind fun base => Method.property? base key

def methodResult (global? : Option String) (base? : Option Value) (method : String)
    (args : List Value) :
    Option Value :=
  match global? with
  | some "Math" => Builtin.math? method args
  | some "String" => Builtin.string? method args
  | some "Number" => Builtin.number? method args
  | _ => base?.bind fun base => Method.call? base method args

def Compatible (first second : Option Value) :
    Prop := ∀ x y, first = some x → second = some y → x = y

/-- What stands before a member, in two programs: nothing that tells the results apart. -/
structure SameBase (global? globalAfter? : Option String) (base? baseAfter? : Option Value) :
    Prop where
  base : Compatible base? baseAfter?
  globals : globalAfter? = global? ∨ (global? = none ∧ base? = none) ∨
    ((∀ name, global? = some name → (globalValue? name).isSome = true) ∧
      ∀ name, globalAfter? = some name → (globalValue? name).isSome = true)

/-- A result by what stands before a member: a function of a global object, or something read from a
value. No object with functions is a value. -/
structure ReadsBase (result : Option String → Option Value → Option Value)
    (read : Value → Option Value) :
    Prop where
  fixed_or_read : ∀ global?, (∀ a b, result global? a = result global? b) ∨
    ∀ base?, result global? base? = base?.bind read
  plain : ∀ {global? base? x}, (∀ name, global? = some name → (globalValue? name).isSome = true) →
    result global? base? = some x → base?.bind read = some x

theorem readsBase_member (key : String) :
    ReadsBase (memberResult · · key) (fun base => Method.property? base key) where
  fixed_or_read global? := by
    unfold memberResult
    split
    · exact .inl fun _ _ => rfl
    · exact .inl fun _ _ => rfl
    · exact .inl fun _ _ => rfl
    · exact .inr fun _ => rfl
  plain values made := by
    unfold memberResult at made
    split at made
    · cases values _ rfl
    · cases values _ rfl
    · cases made
    · exact made

theorem readsBase_method (method : String) (args : List Value) :
    ReadsBase (methodResult · · method args) (fun base => Method.call? base method args) where
  fixed_or_read global? := by
    unfold methodResult
    split
    · exact .inl fun _ _ => rfl
    · exact .inl fun _ _ => rfl
    · exact .inl fun _ _ => rfl
    · exact .inr fun _ => rfl
  plain values made := by
    unfold methodResult at made
    split at made
    · cases values _ rfl
    · cases values _ rfl
    · cases values _ rfl
    · exact made

theorem SameBase.compatible {global? globalAfter? : Option String} {base? baseAfter? : Option Value}
    {result : Option String → Option Value → Option Value} {read : Value → Option Value}
    (same : SameBase global? globalAfter? base? baseAfter?) (reads : ReadsBase result read) :
    Compatible (result global? base?) (result globalAfter? baseAfter?) := by
  intro x y first second
  have ofRead (first : base?.bind read = some x) (second : baseAfter?.bind read = some y) :
      x = y := by
    obtain ⟨a, isBase, first⟩ := Option.bind_eq_some_iff.mp first
    obtain ⟨b, isBaseAfter, second⟩ := Option.bind_eq_some_iff.mp second
    rw [same.base a b isBase isBaseAfter, second] at first
    exact (Option.some.inj first).symm
  rcases same.globals with rfl | ⟨rfl, rfl⟩ | ⟨plain, plainAfter⟩
  · rcases reads.fixed_or_read globalAfter? with fixed | isRead
    · rw [fixed base? baseAfter?, second] at first
      exact (Option.some.inj first).symm
    · rw [isRead] at first second
      exact ofRead first second
  · cases reads.plain (by simp) first
  · exact ofRead (reads.plain plain first) (reads.plain plainAfter second)

theorem compatible_of_mapM {f g : NodeId → Option Value} {σ : NodeId → NodeId} {parts : List NodeId}
    {items others : List Value} (each : ∀ part ∈ parts, Compatible (f part) (g (σ part)))
    (first : parts.mapM f = some items) (second : (parts.map σ).mapM g = some others) :
    items = others := by
  induction parts generalizing items others with
  | nil =>
    cases first
    cases second
    rfl
  | cons part rest induction =>
    rw [List.forall_mem_cons] at each
    rw [List.mapM_cons] at first
    rw [List.map_cons, List.mapM_cons] at second
    simp only [Option.bind_eq_bind, Option.bind_eq_some_iff, Option.pure_def, Option.some.injEq]
      at first second
    obtain ⟨a, isFirst, as, found, rfl⟩ := first
    obtain ⟨b, isSecond, bs, foundAfter, rfl⟩ := second
    rw [each.1 a b isFirst isSecond, induction each.2 found foundAfter]

namespace Folded

variable (folded : p.Folded target v placed grown after) {other : Nat}

include folded

theorem compatible_target :
    Compatible (p.evaluateWithin limit target) (after.evaluateWithin other placed) := by
  intro x y first second
  obtain ⟨enough, made⟩ := folded.made
  rw [← evaluateWithin_unique made first]
  exact evaluateWithin_unique
    (folded.evaluateWithin_eq folded.unbound (keyed_of_evaluateWithin made) (Nat.le_refl _)) second

theorem isEvaluable_target : (p.node target).isEvaluable = true := by
  obtain ⟨enough, made⟩ := folded.made
  exact isEvaluable_of_evaluateWithin made

theorem isConstantForm_placed : (after.node placed).isConstantForm = true :=
  isConstantForm_of_spelled folded.spelled_after

theorem globalValue?_of_placed (spelled : after.node placed = .identifier name) :
    (globalValue? name).isSome = true := by
  obtain ⟨enough, made⟩ := folded.made
  have madeAfter := folded.evaluateWithin_eq folded.unbound (keyed_of_evaluateWithin made)
    (Nat.le_refl _)
  rw [evaluateWithin_succ, evaluateStep, spelled] at madeAfter
  simp only [folded.bindingOf?_of_within folded.unbound Tree.isWithin_self] at madeAfter
  simp [madeAfter]

theorem isFunction_exchange {child : NodeId} (place : child = target ∨ p.Outside target child) :
    (after.node (Node.exchange target placed child)).isFunction = (p.node child).isFunction := by
  rcases place with rfl | outside
  · have before := folded.isEvaluable_target
    have form := folded.isConstantForm_placed
    rw [Node.exchange, if_pos rfl]
    cases shape : p.node child <;> cases shapeAfter : after.node placed <;>
      simp_all [Node.isEvaluable, Node.isConstantForm, Node.isFunction, Node.function?]
  · rw [outside.exchange_eq, folded.node_eq outside, ← Node.isFunction_tag, Node.tag_map,
      Node.isFunction_tag]

theorem compatible_part {child : NodeId} (place : child = target ∨ p.Outside target child)
    (each : ∀ id, p.Outside target id → Compatible (p.evaluateWithin limit id)
      (after.evaluateWithin other id)) :
    Compatible (p.evaluateWithin limit child)
      (after.evaluateWithin other (Node.exchange target placed child)) := by
  rcases place with rfl | outside
  · rw [Node.exchange, if_pos rfl]
    exact folded.compatible_target
  · have different : child ≠ target := by
      rintro rfl
      have inside := outside.outside
      rw [Tree.isWithin_self] at inside
      cases inside
    rw [Node.exchange_of_ne different]
    exact each child outside

variable (outside : p.Outside target id)

include outside

theorem exists_certain {binding : BindingId} (shape : p.node id = .identifier name)
    (belongs : p.bindingOf? id = some binding) (made : p.evaluateWithin (limit + 1) id = some x) :
    ∃ d init, p.Certain d init ∧ p.evaluateWithin limit init = some x ∧ d ∈ p.lexicon.declared ∧
      p.tree.isWithin d.identifier target = false ∧
      ∃ kept, after.bindingOf? id = some kept ∧ after.scopes.Stands kept d := by
  have steady := folded.steady
  obtain ⟨d, means, stands⟩ := steady.sound.exists_of_bindingOf? belongs
  rw [evaluateWithin_succ, evaluateStep, shape] at made
  simp only [belongs, Option.bind_eq_bind, Option.bind_eq_some_iff, Option.ite_none_right_eq_some,
    Option.some.injEq] at made
  obtain ⟨init, found, value, isValue, -, rfl⟩ := made
  have certain := steady.certain_of_constantInit? stands found
  obtain ⟨enough, madeTarget⟩ := folded.made
  have staying := steady.not_isWithin_of_certain certain means madeTarget folded.free
    outside.outside
  exact ⟨d, init, certain, isValue, (Lexicon.binder?_some (Lexicon.meaning?_some means)).1, staying,
    folded.afterSteady.sound.exists_of_meaning? (folded.meaning?_eq outside means staying)⟩

theorem sameBase {base : NodeId} (isBase : p.BaseOf id base)
    (isBaseAfter : after.BaseOf id (Node.exchange target placed base))
    (place : base = target ∨ p.Outside target base)
    (same : Compatible (p.evaluateWithin limit base)
      (after.evaluateWithin other (Node.exchange target placed base))) :
    SameBase (p.globalBase? id base) (after.globalBase? id (Node.exchange target placed base))
      (p.evaluateWithin limit base)
        (after.evaluateWithin other (Node.exchange target placed base)) := by
  refine ⟨same, ?_⟩
  rcases place with rfl | outsideBase
  · obtain ⟨enough, made⟩ := folded.made
    rw [Node.exchange, if_pos rfl] at isBaseAfter ⊢
    have madeAfter := folded.evaluateWithin_eq folded.unbound (keyed_of_evaluateWithin made)
      (Nat.le_refl _)
    exact .inr (.inr ⟨fun _ => folded.steady.globalValue?_of_globalBase? isBase made,
      fun _ => folded.afterSteady.globalValue?_of_globalBase? isBaseAfter madeAfter⟩)
  · have different : base ≠ target := by
      rintro rfl
      have inside := outsideBase.outside
      rw [Tree.isWithin_self] at inside
      cases inside
    rw [Node.exchange_of_ne different] at isBaseAfter ⊢
    have spelledAfter : (after.node base).identifier? = (p.node base).identifier? := by
      rw [folded.node_eq outsideBase, ← Node.identifier?_tag, Node.tag_map, Node.identifier?_tag]
    cases spelled : (p.node base).identifier? with
    | none => exact .inl (by rw [globalBase?, globalBase?, spelledAfter, spelled]; rfl)
    | some name =>
      by_cases unbound : p.isUnbound id name = true
      · have unboundAfter := folded.isUnbound_after outside unbound
        exact .inl (by rw [globalBase?, globalBase?, spelledAfter, spelled, Option.filter_some,
          Option.filter_some,
          if_pos unbound, if_pos unboundAfter])
      · have noGlobal : p.globalBase? id base = none := by
          rw [globalBase?, spelled, Option.filter_some, if_neg unbound]
        cases made : p.evaluateWithin limit base with
        | none => exact .inr (.inl ⟨noGlobal, rfl⟩)
        | some x =>
          -- The name of a variable stays one.
          obtain ⟨binding, belongs⟩ : ∃ binding, p.bindingOf? base = some binding := by
            rw [← folded.steady.bindingOf?_base isBase spelled] at unbound
            exact Option.ne_none_iff_exists'.mp unbound
          have shape : p.node base = .identifier name := by
            cases shape : p.node base <;> simp_all [Node.identifier?]
          cases limit with
          | zero => cases made
          | succ limit =>
            obtain ⟨d, init, -, -, -, -, kept, belongsAfter, -⟩ :=
              folded.exists_certain outsideBase shape belongs made
            left
            rw [noGlobal, globalBase?, spelledAfter, spelled, Option.filter_some, if_neg]
            rw [← folded.afterSteady.bindingOf?_base isBaseAfter (spelledAfter.trans spelled),
              belongsAfter]
            simp

omit outside in
theorem outside_of_label (id : NodeId) {child : NodeId}
    (place : child = target ∨ p.Outside target child) (held : child ∈ (p.node id).part .label) :
    p.Outside target child := by
  refine place.resolve_left ?_
  rintro rfl
  exact folded.unlabelled id held

section Step

variable (each : ∀ id, p.Outside target id → Compatible (p.evaluateWithin limit id)
  (after.evaluateWithin other id))

include each

theorem compatible_member {text? : Value → Option String} {base key : NodeId} {computed : Bool}
    {a b : String} (shape : p.node id = .member base key computed)
    (first : p.evaluateMember text? (p.evaluateWithin limit) key computed = some a)
    (second :
      after.evaluateMember text? (after.evaluateWithin other) (Node.exchange target placed key)
        computed =
        some b) : a = b := by
  have place : key = target ∨ p.Outside target key :=
    folded.child outside (by simp [shape, Node.children])
  cases computed with
  | true =>
    obtain ⟨x, isKey, first⟩ := Option.bind_eq_some_iff.mp first
    obtain ⟨y, isKeyAfter, second⟩ := Option.bind_eq_some_iff.mp second
    rw [folded.compatible_part place each x y isKey isKeyAfter, second] at first
    exact (Option.some.inj first).symm
  | false =>
    have staying := folded.outside_of_label id place (by simp [shape, Node.part])
    rw [staying.exchange_eq] at second
    change (after.node key).identifier? = some b at second
    rw [folded.identifier?_eq staying] at second
    exact Option.some.inj (first.symm.trans second)

theorem compatible_key {key value : NodeId} {computed : Bool} {a b : String}
    (shape : p.node id = .property key value computed)
    (first : p.evaluateKey (p.evaluateWithin limit) key computed = some a)
    (second :
      after.evaluateKey (after.evaluateWithin other) (Node.exchange target placed key) computed =
        some b) : a = b := by
  have place : key = target ∨ p.Outside target key :=
    folded.child outside (by simp [shape, Node.children])
  cases computed with
  | true =>
    simp only [evaluateKey] at first second
    obtain ⟨x, isKey, first⟩ := Option.bind_eq_some_iff.mp first
    obtain ⟨y, isKeyAfter, second⟩ := Option.bind_eq_some_iff.mp second
    rw [folded.compatible_part place each x y isKey isKeyAfter, second] at first
    exact (Option.some.inj first).symm
  | false =>
    have staying := folded.outside_of_label id place (by simp [shape, Node.part])
    rw [staying.exchange_eq] at second
    unfold evaluateKey at first second
    rw [folded.node_eq staying] at second
    cases keyShape : p.node key <;> rw [keyShape] at first second
    case identifier => exact Option.some.inj (first.symm.trans second)
    case literal => exact Option.some.inj (first.symm.trans second)
    all_goals cases first

theorem compatible_entries {properties : List NodeId} {known entries others : List (String × Value)}
    (held : ∀ property ∈ properties, property ∈ (p.node id).children)
    (first : properties.foldlM (p.evaluateEntry (p.evaluateWithin limit)) known = some entries)
    (second : (properties.map (Node.exchange target placed)).foldlM
      (after.evaluateEntry (after.evaluateWithin other)) known = some others) :
      entries = others := by
  induction properties generalizing known with
  | nil => exact Option.some.inj (first.symm.trans second)
  | cons property rest induction =>
    rw [List.forall_mem_cons] at held
    rw [List.foldlM_cons] at first
    rw [List.map_cons, List.foldlM_cons] at second
    obtain ⟨next, isNext, first⟩ := Option.bind_eq_some_iff.mp first
    obtain ⟨nextAfter, isNextAfter, second⟩ := Option.bind_eq_some_iff.mp second
    suffices next = nextAfter by
      subst this
      exact induction held.2 first second
    unfold evaluateEntry at isNext isNextAfter
    split at isNext
    · rename_i key value computed shape
      have staying : p.Outside target property := by
        refine (folded.child outside held.1).resolve_left ?_
        rintro rfl
        have evaluable := folded.isEvaluable_target
        rw [shape] at evaluable
        cases evaluable
      rw [staying.exchange_eq, folded.node_eq staying, shape] at isNextAfter
      change (do
        let key ← after.evaluateKey (after.evaluateWithin other) (Node.exchange target placed key)
          computed
        return Value.setEntry key (← after.evaluateWithin other (Node.exchange target placed value))
          known) = some nextAfter at isNextAfter
      simp only [Option.bind_eq_bind, Option.bind_eq_some_iff, Option.pure_def, Option.some.injEq]
        at isNext isNextAfter
      obtain ⟨a, isKey, x, isValue, rfl⟩ := isNext
      obtain ⟨b, isKeyAfter, y, isValueAfter, rfl⟩ := isNextAfter
      have place : value = target ∨ p.Outside target value :=
        folded.child staying (by simp [shape, Node.children])
      rw [folded.compatible_key staying each shape isKey isKeyAfter,
        folded.compatible_part place each x y isValue isValueAfter]
    · cases isNext

theorem compatible_parts {parts : List NodeId} {items others : List Value}
    (held : ∀ part ∈ parts, part ∈ (p.node id).children)
    (first : parts.mapM (p.evaluateWithin limit) = some items)
    (second : (parts.map (Node.exchange target placed)).mapM (after.evaluateWithin other) =
      some others) :
    items = others :=
  compatible_of_mapM
    (fun part member => folded.compatible_part (folded.child outside (held part member))
      each)
      first second

theorem compatible_identifier (shape : p.node id = .identifier name) :
    Compatible (p.evaluateWithin (limit + 1) id) (after.evaluateWithin (other + 1) id) := by
  intro x y first second
  have shapeAfter : after.node id = .identifier name := by
    rw [folded.node_eq outside, shape]
    rfl
  cases belongs : p.bindingOf? id with
  | none =>
    rw [evaluateWithin_succ, evaluateStep, shape] at first
    rw [evaluateWithin_succ, evaluateStep, shapeAfter] at second
    simp only [belongs] at first
    simp only [folded.bindingOf?_eq_none outside belongs] at second
    exact Option.some.inj (first.symm.trans second)
  | some binding =>
    obtain ⟨d, init, certain, isValue, member, staying, kept, belongsAfter, stands⟩ :=
      folded.exists_certain outside shape belongs first
    rw [evaluateWithin_succ, evaluateStep, shapeAfter] at second
    simp only [belongsAfter, Option.bind_eq_bind, Option.bind_eq_some_iff,
      Option.ite_none_right_eq_some, Option.some.injEq] at second
    obtain ⟨initAfter, found, value, isValueAfter, -, rfl⟩ := second
    have certainAfter := folded.afterSteady.certain_of_constantInit? stands found
    -- The declaration has stayed where it was.
    have linked := folded.steady.linked
    have held : p.tree.parent? d.identifier = some d.declaration := by
      rw [← linked.mem_children, ← node, certain.shape]
      simp [Node.children]
    have attached := (linked.scopes_owner folded.steady.isTop member).1
    have declares : p.Outside target d.declaration := by
      refine ⟨linked.isWithin_root_of_above folded.steady.isTop attached
        (linked.isWithin_of_parent held), ?_⟩
      rw [Bool.eq_false_iff]
      intro within
      rw [linked.isWithin_trans (linked.isWithin_of_parent held) within] at staying
      cases staying
    have shapes := folded.node_eq declares
    rw [certain.shape, certainAfter.shape] at shapes
    obtain rfl : initAfter = Node.exchange target placed init :=
      Option.some.inj (Node.variableDeclarator.inj shapes).2
    have place : init = target ∨ p.Outside target init :=
      folded.child declares (by simp [certain.shape, Node.children])
    exact folded.compatible_part place each x value isValue isValueAfter

theorem compatible_call {callee : NodeId} {arguments : List NodeId}
    (shape : p.node id = .call callee arguments) :
    Compatible (p.evaluateWithin (limit + 1) id) (after.evaluateWithin (other + 1) id) := by
  intro x y first second
  have shapeAfter : after.node id = .call (Node.exchange target placed callee)
      (arguments.map (Node.exchange target placed)) := by
    rw [folded.node_eq outside, shape]
    simp [Node.map, Node.traverse]
  rw [evaluateWithin_succ, evaluateStep, shape] at first
  rw [evaluateWithin_succ, evaluateStep, shapeAfter] at second
  obtain ⟨args, found, first⟩ := Option.bind_eq_some_iff.mp first
  obtain ⟨argsAfter, foundAfter, second⟩ := Option.bind_eq_some_iff.mp second
  obtain rfl : args = argsAfter :=
    folded.compatible_parts outside each (fun part member => by simp [shape, Node.children, member])
      found foundAfter
  have place : callee = target ∨ p.Outside target callee :=
    folded.child outside (by simp [shape, Node.children])
  rcases place with rfl | staying
  · -- The expression for a value is no function.
    rw [Node.exchange, if_pos rfl] at second
    split at second
    · rename_i name spelled
      have isGlobal := folded.globalValue?_of_placed spelled
      unfold globalValue? at isGlobal
      split at second
      · split at isGlobal
        · simp [Builtin.global?] at second
        · simp [Builtin.global?] at second
        · simp [Builtin.global?] at second
        · cases isGlobal
      · cases second
    · rename_i spelled
      have form := folded.isConstantForm_placed
      rw [spelled] at form
      cases form
    · cases second
  · rw [staying.exchange_eq] at shapeAfter second
    rw [folded.node_eq staying] at second
    cases method : p.node callee with
    | identifier name =>
      rw [method] at first second
      change (if after.isUnbound id name = true then Builtin.global? name args else none) =
        some y at second
      rw [Option.ite_none_right_eq_some] at first
      rw [if_pos (folded.isUnbound_after outside first.1), first.2] at second
      exact Option.some.inj second
    | member base key computed =>
      rw [method] at first
      have methodAfter : after.node callee = .member (Node.exchange target placed base)
          (Node.exchange target placed key) computed := by
        rw [folded.node_eq staying, method]
        rfl
      rw [← folded.node_eq staying, methodAfter] at second
      obtain ⟨name, isKey, first⟩ := Option.bind_eq_some_iff.mp first
      obtain ⟨nameAfter, isKeyAfter, second⟩ := Option.bind_eq_some_iff.mp second
      obtain rfl := folded.compatible_member staying each method isKey isKeyAfter
      have place : base = target ∨ p.Outside target base :=
        folded.child staying (by simp [method, Node.children])
      have same :=
        folded.sameBase outside (folded.steady.baseOf_callee outside.attached shape method)
          (folded.afterSteady.baseOf_callee (folded.attached_after outside) shapeAfter methodAfter)
          place (folded.compatible_part place each)
      exact same.compatible (readsBase_method name args) x y first second
    | _ =>
      rw [method] at first
      cases first

theorem compatible_step :
    Compatible (p.evaluateWithin (limit + 1) id) (after.evaluateWithin (other + 1) id) := by
  intro x y first second
  have part {child : NodeId} (member : child ∈ (p.node id).children) :=
    folded.compatible_part (folded.child outside member) each
  have nodes := folded.node_eq outside
  cases shape : p.node id with
  | identifier name => exact folded.compatible_identifier outside each shape x y first second
  | call callee arguments => exact folded.compatible_call outside each shape x y first second
  | literal value =>
    have shapeAfter : after.node id = .literal value := by
      rw [nodes, shape]
      rfl
    rw [evaluateWithin_succ, evaluateStep, shape] at first
    rw [evaluateWithin_succ, evaluateStep, shapeAfter] at second
    exact Option.some.inj (first.symm.trans second)
  | array elements =>
    have shapeAfter : after.node id = .array (elements.map (Node.exchange target placed)) := by
      rw [nodes, shape]
      simp [Node.map, Node.traverse]
    rw [evaluateWithin_succ, evaluateStep, shape] at first
    rw [evaluateWithin_succ, evaluateStep, shapeAfter] at second
    obtain ⟨items, found, first⟩ := Option.bind_eq_some_iff.mp first
    obtain ⟨others, foundAfter, second⟩ := Option.bind_eq_some_iff.mp second
    rw [folded.compatible_parts outside each
      (fun part member => by simpa [shape, Node.children] using member) found foundAfter] at first
    exact Option.some.inj (first.symm.trans second)
  | object properties =>
    have shapeAfter : after.node id = .object (properties.map (Node.exchange target placed)) := by
      rw [nodes, shape]
      simp [Node.map, Node.traverse]
    rw [evaluateWithin_succ, evaluateStep, shape] at first
    rw [evaluateWithin_succ, evaluateStep, shapeAfter] at second
    obtain ⟨entries, found, first⟩ := Option.bind_eq_some_iff.mp first
    obtain ⟨others, foundAfter, second⟩ := Option.bind_eq_some_iff.mp second
    rw [folded.compatible_entries outside each
      (fun part member => by simpa [shape, Node.children] using member)
      found foundAfter] at first
    exact Option.some.inj (first.symm.trans second)
  | sequence expressions =>
    have shapeAfter :
        after.node id = .sequence (expressions.map (Node.exchange target placed)) := by
      rw [nodes, shape]
      simp [Node.map, Node.traverse]
    rw [evaluateWithin_succ, evaluateStep, shape] at first
    rw [evaluateWithin_succ, evaluateStep, shapeAfter] at second
    obtain ⟨items, found, first⟩ := Option.bind_eq_some_iff.mp first
    obtain ⟨others, foundAfter, second⟩ := Option.bind_eq_some_iff.mp second
    rw [folded.compatible_parts outside each
      (fun part member => by simpa [shape, Node.children] using member) found foundAfter] at first
    exact Option.some.inj (first.symm.trans second)
  | unary operator argument =>
    have shapeAfter : after.node id = .unary operator (Node.exchange target placed argument) := by
      rw [nodes, shape]
      rfl
    have member : argument ∈ (p.node id).children := by simp [shape, Node.children]
    rw [evaluateWithin_succ, evaluateStep, shape] at first
    rw [evaluateWithin_succ, evaluateStep, shapeAfter] at second
    have sameForm : (after.node (Node.exchange target placed argument)).isFunction =
        (p.node argument).isFunction := folded.isFunction_exchange (folded.child outside member)
    dsimp only at first second
    rw [sameForm] at second
    split at first <;> rename_i isFunction
    · rw [if_pos isFunction] at second
      exact Option.some.inj (first.symm.trans second)
    · rw [if_neg isFunction] at second
      obtain ⟨a, isPart, first⟩ := Option.bind_eq_some_iff.mp first
      obtain ⟨b, isPartAfter, second⟩ := Option.bind_eq_some_iff.mp second
      rw [part member a b isPart isPartAfter] at first
      exact Option.some.inj (first.symm.trans second)
  | binary operator left right =>
    have shapeAfter : after.node id = .binary operator (Node.exchange target placed left)
        (Node.exchange target placed right) := by
      rw [nodes, shape]
      rfl
    rw [evaluateWithin_succ, evaluateStep, shape] at first
    rw [evaluateWithin_succ, evaluateStep, shapeAfter] at second
    simp only [Option.bind_eq_bind, Option.bind_eq_some_iff] at first second
    obtain ⟨a, isLeft, b, isRight, first⟩ := first
    obtain ⟨a', isLeftAfter, b', isRightAfter, second⟩ := second
    rw [part (by simp [shape, Node.children]) a a' isLeft isLeftAfter,
      part (by simp [shape, Node.children]) b b' isRight isRightAfter] at first
    exact Option.some.inj (first.symm.trans second)
  | logical operator left right =>
    have shapeAfter : after.node id = .logical operator (Node.exchange target placed left)
        (Node.exchange target placed right) := by
      rw [nodes, shape]
      rfl
    rw [evaluateWithin_succ, evaluateStep, shape] at first
    rw [evaluateWithin_succ, evaluateStep, shapeAfter] at second
    obtain ⟨a, isLeft, first⟩ := Option.bind_eq_some_iff.mp first
    obtain ⟨b, isLeftAfter, second⟩ := Option.bind_eq_some_iff.mp second
    obtain rfl := part (by simp [shape, Node.children]) a b isLeft isLeftAfter
    split at first <;> rename_i keeps
    · rw [if_pos keeps] at second
      exact Option.some.inj (first.symm.trans second)
    · rw [if_neg keeps] at second
      exact part (by simp [shape, Node.children]) x y first second
  | conditional test consequent alternate =>
    have shapeAfter : after.node id = .conditional (Node.exchange target placed test)
        (Node.exchange target placed consequent) (Node.exchange target placed alternate) := by
      rw [nodes, shape]
      rfl
    rw [evaluateWithin_succ, evaluateStep, shape] at first
    rw [evaluateWithin_succ, evaluateStep, shapeAfter] at second
    obtain ⟨a, isTest, first⟩ := Option.bind_eq_some_iff.mp first
    obtain ⟨b, isTestAfter, second⟩ := Option.bind_eq_some_iff.mp second
    obtain rfl := part (by simp [shape, Node.children]) a b isTest isTestAfter
    split at first <;> rename_i holds
    · rw [if_pos holds] at second
      exact part (by simp [shape, Node.children]) x y first second
    · rw [if_neg holds] at second
      exact part (by simp [shape, Node.children]) x y first second
  | member base key computed =>
    have shapeAfter : after.node id = .member (Node.exchange target placed base)
        (Node.exchange target placed key) computed := by
      rw [nodes, shape]
      rfl
    rw [evaluateWithin_succ, evaluateStep, shape] at first
    rw [evaluateWithin_succ, evaluateStep, shapeAfter] at second
    obtain ⟨name, isKey, first⟩ := Option.bind_eq_some_iff.mp first
    obtain ⟨nameAfter, isKeyAfter, second⟩ := Option.bind_eq_some_iff.mp second
    obtain rfl := folded.compatible_member outside each shape isKey isKeyAfter
    have place : base = target ∨ p.Outside target base :=
      folded.child outside (by simp [shape, Node.children])
    have same := folded.sameBase outside (folded.steady.baseOf_member outside.attached shape)
      (folded.afterSteady.baseOf_member (folded.attached_after outside) shapeAfter) place
      (folded.compatible_part place each)
    exact same.compatible (readsBase_member name) x y first second
  | _ =>
    rw [evaluateWithin_succ, evaluateStep, shape] at first
    cases first

end Step

theorem compatible : Compatible (p.evaluateWithin limit id) (after.evaluateWithin other id) := by
  induction limit generalizing id other with
  | zero =>
    intro x y first
    cases first
  | succ limit induction =>
    cases other with
    | zero =>
      intro x y first second
      cases second
    | succ other => exact folded.compatible_step outside fun id outside => induction outside

end Folded

/-- Where an expression is replaced by the expression for its value, the values of all others agree
with those that they had. -/
theorem same_value_after_folding (reached : p.Reached) (verified : p.verify = .ok ())
    (wellBound : p.tree.WellBound) (attached : p.isAttached target = true)
    (free : ¬p.tree.Binds target) (unlabelled : ∀ parent, target ∉ (p.node parent).part .label)
    (evaluated : p.evaluate? target = some v)
    (unbound : ∀ name ∈ ["undefined", "NaN", "Infinity"], p.isUnbound target name = true) :
    ∃ after, Program.replace { p with tree := (v.encode p.tree).2 } target (v.encode p.tree).1 =
        .ok ((v.encode p.tree).1, after) ∧
      ∀ id x y, p.isAttached id = true → after.isAttached id = true →
        p.evaluate? id = some x → after.evaluate? id = some y → x = y := by
  have steady : p.Steady := ⟨reached.sound verified, wellBound⟩
  have evaluable := isEvaluable_of_evaluateWithin evaluated
  obtain ⟨after, done, placing⟩ := steady.exists_placing attached free
    (Node.isExchangeable_of_isEvaluable evaluable) v
  refine ⟨after, done, fun id x y before afterwards first second => ?_⟩
  have folded : p.Folded target v (v.encode p.tree).1 (v.encode p.tree).2 after :=
    ⟨placing, ⟨65, evaluated⟩, unlabelled,
      fun name member => unbound name (Value.mem_globals v member)⟩
  exact folded.compatible (placing.outside_of_attached before afterwards) x y first second

/-! ### An instance -/

/-- The tree of `[!true];`. -/
def negation : Tree :=
  ⟨#[⟨.literal (.boolean true), some ⟨1⟩⟩, ⟨.unary .not ⟨0⟩, some ⟨2⟩⟩, ⟨.array [⟨1⟩], some ⟨3⟩⟩,
    ⟨.expressionStatement ⟨2⟩, some ⟨4⟩⟩, ⟨.program [⟨3⟩], none⟩]⟩

/-- The array around a negation has the same value when the negation is folded. -/
theorem exists_same_value_after_folding : ∃ p after, ofTree negation ⟨4⟩ = .ok p ∧
    Program.replace { p with tree := ((Value.bool false).encode negation).2 } ⟨1⟩ ⟨5⟩ =
      .ok (⟨5⟩, after) ∧
      ∃ x y, p.evaluate? ⟨2⟩ = some x ∧ after.evaluate? ⟨2⟩ = some y ∧ x = y := by
  obtain ⟨scopes, made, steady⟩ := exists_steady negation ⟨4⟩
    (Tree.linked_of_checks (by decide)) ⟨by decide, by decide⟩
    (Tree.wellBound_of_bindsWell (by decide)) rfl
  have free : ¬negation.Binds ⟨1⟩ := steady.not_binds_of_not_isPattern rfl
  have unlabelled :
      ∀ parent, ⟨1⟩ ∉ (Program.node ⟨negation, ⟨4⟩, scopes, false⟩ parent).part .label := by
    intro parent held
    have above := steady.linked.parent?_of_mem_part held
    obtain rfl : ⟨2⟩ = parent := Option.some.inj above
    cases held
  have unbound : ∀ name ∈ ["undefined", "NaN", "Infinity"],
      Program.isUnbound ⟨negation, ⟨4⟩, scopes, false⟩ ⟨1⟩ name = true := by
    have attached : negation.isWithin ⟨1⟩ ⟨4⟩ = true := by decide
    simp only [steady.sound.isUnbound_iff attached]
    change ∀ name ∈ ["undefined", "NaN", "Infinity"],
      (negation.lexicon ⟨4⟩).look? (negation.sight ⟨1⟩) name = none
    decide
  obtain ⟨after, done, agrees⟩ := same_value_after_folding (.made steady.linked steady.isTop made)
    steady.sound.verify steady.wellBound rfl free unlabelled (v := .bool false) rfl unbound
  obtain ⟨other, sameDone, placing⟩ := steady.exists_placing rfl free rfl (.bool false)
  obtain rfl : other = after := by
    have same := sameDone.symm.trans done
    cases same
    rfl
  have tree : other.tree = ((Value.bool false).encode negation).2.replace ⟨1⟩ ⟨5⟩ := placing.tree
  have root : other.root = ⟨4⟩ := placing.root
  have valueAfter : other.evaluate? ⟨2⟩ = some (.array [.bool false]) := by
    obtain ⟨otherTree, otherRoot, otherScopes, stale⟩ := other
    subst tree
    rfl
  have attachedAfter : other.isAttached ⟨2⟩ = true := by
    obtain ⟨otherTree, otherRoot, otherScopes, stale⟩ := other
    subst tree root
    rfl
  exact ⟨_, other, made, done, _, _, rfl, valueAfter, agrees ⟨2⟩ _ _ rfl attachedAfter
    rfl valueAfter⟩

end Program

end Unravel
