import Mathlib
import Unravel.Proofs.Eval.Step
import Unravel.Proofs.Program.Meaning

/-!
Evaluation at some depth, and what it meets on its way. The depth limit only loses values: what has
a value at some depth has it at all smaller ones. An evaluation that records which expressions it
visits, at which depth and with which result (`Program.recordAt`), comes to the same results, and
every value that it records is the value which that expression has on its own
(`Program.alone_as_inside`).
-/

namespace Unravel

/-! ### Records -/

structure Visit where
  depth : Nat
  id : NodeId
  value : Option Value

abbrev Recorder (α : Type) : Type := OptionT (StateM (List Visit)) α

namespace Recorder

variable {α β : Type} {kind other : Visit → Prop} {recorder : Recorder α} {result : Option α}
  {seen : List Visit}

/-- A result that needs no visit. -/
def known (result : Option α) : Recorder α := OptionT.mk (pure result)

def visiting (depth : Nat) (id : NodeId) (recorder : Recorder Value) :
    Recorder Value := OptionT.mk do
  let value ← recorder.run
  modify (· ++ [⟨depth, id, value⟩])
  return value

/--
A recorder comes to a result, whatever has been seen before, and records only visits of some kind.
-/
def Yields (kind : Visit → Prop) (recorder : Recorder α) (result : Option α) : Prop :=
  ∀ seen, ∃ visits, recorder.run.run seen = (result, seen ++ visits) ∧ ∀ visit ∈ visits, kind visit

namespace Yields

theorem mono (yields : Yields kind recorder result) (weaker : ∀ visit, kind visit → other visit) :
    Yields other recorder result := by
  intro seen
  obtain ⟨visits, ran, each⟩ := yields seen
  exact ⟨visits, ran, fun visit member => weaker visit (each visit member)⟩

theorem known (result : Option α) : Yields kind (known result) result :=
  fun seen => ⟨[], by rw [List.append_nil]; rfl, by simp⟩

theorem pure (a : α) : Yields kind (pure a) (some a) := known (some a)

theorem bind {next : α → Recorder β} {rest : α → Option β} (first : Yields kind recorder result)
    (second : ∀ a, result = some a → Yields kind (next a) (rest a)) :
    Yields kind (recorder >>= next) (result.bind rest) := by
  intro seen
  obtain ⟨visits, ran, each⟩ := first seen
  cases result with
  | none =>
    refine ⟨visits, ?_, each⟩
    rw [OptionT.run_bind, Option.elimM, StateT.run_bind, ran]
    rfl
  | some a =>
    obtain ⟨more, further, others⟩ := second a rfl (seen ++ visits)
    refine ⟨visits ++ more, ?_,
      fun visit member => (List.mem_append.mp member).elim (each visit) (others visit)⟩
    rw [OptionT.run_bind, Option.elimM, StateT.run_bind, ran, ← List.append_assoc]
    exact further

theorem mapM {f : NodeId → Recorder β} {g : NodeId → Option β} {parts : List NodeId}
    (each : ∀ part ∈ parts, Yields kind (f part) (g part)) :
    Yields kind (parts.mapM f) (parts.mapM g) := by
  induction parts with
  | nil => exact pure []
  | cons head rest induction =>
    rw [List.forall_mem_cons] at each
    rw [List.mapM_cons, List.mapM_cons]
    exact bind each.1 fun first _ => bind (induction each.2) fun others _ => pure (first :: others)

theorem foldlM {f : β → NodeId → Recorder β} {g : β → NodeId → Option β}
    {parts : List NodeId} {start : β}
    (each : ∀ state, ∀ part ∈ parts, Yields kind (f state part) (g state part)) :
    Yields kind (parts.foldlM f start) (parts.foldlM g start) := by
  induction parts generalizing start with
  | nil => exact pure start
  | cons head rest induction =>
    rw [List.foldlM_cons, List.foldlM_cons]
    refine bind (each start head (List.mem_cons_self ..))
      fun state _ => induction fun state part member => ?_
    exact each state part (List.mem_cons_of_mem _ member)

theorem visiting {depth : Nat} {id : NodeId} {recorder : Recorder Value} {value : Option Value}
    (yields : Yields kind recorder value) (isKind : kind ⟨depth, id, value⟩) :
    Yields kind (visiting depth id recorder) value := by
  intro seen
  obtain ⟨visits, ran, each⟩ := yields seen
  refine ⟨visits ++ [⟨depth, id, value⟩], ?_, ?_⟩
  · rw [Recorder.visiting, OptionT.run_mk, StateT.run_bind, ran, ← List.append_assoc]
    rfl
  · simpa [or_imp, forall_and] using ⟨each, isKind⟩

end Yields

end Recorder

/-! ### Evaluation that records -/

namespace Program

open Recorder (known visiting Yields)

variable {p : Program} {eval : NodeId → Recorder Value} {values : NodeId → Option Value}
  {kind : Visit → Prop} {id part inner : NodeId} {depth n : Nat} {v : Value}

def recordKey (p : Program) (eval : NodeId → Recorder Value) (key : NodeId) (computed : Bool) :
    Recorder String :=
  match p.node key, computed with
  | .identifier name, false => return name
  | .literal value, false => return (Value.ofLiteral value).toText
  | _, true => do known (keyText? (← eval key))
  | _, false => known none

def recordEntry (p : Program) (eval : NodeId → Recorder Value) (entries : List (String × Value))
    (property : NodeId) : Recorder (List (String × Value)) :=
  match p.node property with
  | .property key value computed => do
    let key ← p.recordKey eval key computed
    return Value.setEntry key (← eval value) entries
  | _ => known none

def recordMember (p : Program) (text? : Value → Option String) (eval : NodeId → Recorder Value)
    (key : NodeId) (computed : Bool) : Recorder String :=
  if computed then do known (text? (← eval key)) else known (p.node key).identifier?

def recordStep (p : Program) (eval : NodeId → Recorder Value) (id : NodeId) : Recorder Value :=
  match p.node id with
  | .literal value => return Value.ofLiteral value
  | .identifier name =>
    match p.bindingOf? id with
    | none => known (globalValue? name)
    | some binding => do
      let value ← eval (← known (p.constantInit? id binding))
      known (if value.isPrimitive then some value else none)
  | .array elements => do return .array (← elements.mapM eval)
  | .object properties => do return .object (← properties.foldlM (p.recordEntry eval) [])
  | .unary operator argument =>
    if operator = .typeOf && (p.node argument).isFunction then return .string "function"
    else do known (operator.result? (← eval argument))
  | .binary operator left right => do known (operator.result? (← eval left) (← eval right))
  | .logical operator left right => do
    let value ← eval left
    if operator.keepsLeft value then return value else eval right
  | .conditional test consequent alternate => do
    if (← eval test).toBool then eval consequent else eval alternate
  | .sequence expressions => do known (← expressions.mapM eval).getLast?
  | .member base key computed => do
    let key ← p.recordMember keyText? eval key computed
    match p.globalBase? id base with
    | some "Math" => known ((Builtin.mathConstant? key).map .number)
    | some "Number" => known ((Builtin.numberConstant? key).map .number)
    | some _ => known none
    | none => do known (Method.property? (← eval base) key)
  | .call callee arguments => do
    let args ← arguments.mapM eval
    match p.node callee with
    | .identifier name => known (if p.isUnbound id name then Builtin.global? name args else none)
    | .member base key computed =>
      let method ← p.recordMember Value.asString? eval key computed
      match p.globalBase? id base with
      | some "Math" => known (Builtin.math? method args)
      | some "String" => known (Builtin.string? method args)
      | some "Number" => known (Builtin.number? method args)
      | _ => do known (Method.call? (← eval base) method args)
    | _ => known none
  | _ => known none

/-- The value of an expression at some depth, with a record of the visit and of all visits on the
way. At the depth 65 nothing has a value. -/
def recordAt (p : Program) (depth : Nat) (id : NodeId) : Recorder Value :=
  visiting depth id <| if 64 < depth then known none else p.recordStep (p.recordAt (depth + 1)) id
termination_by 65 - depth

/-- Evaluation of an expression consults another one: an operand, a part of a property or of a
callee, or the initializer of a constant. -/
inductive Consults (p : Program) (id : NodeId) : NodeId → Prop where
  | operand {part : NodeId} : part ∈ (p.node id).children → Consults p id part
  | ofProperty {properties : List NodeId} {property part : NodeId} :
      p.node id = .object properties →
      property ∈ properties → part ∈ (p.node property).children → Consults p id part
  | ofCallee {callee part : NodeId} {arguments : List NodeId} : p.node id = .call callee arguments →
      part ∈ (p.node callee).children → Consults p id part
  | initializer {name : String} {binding : BindingId} {part : NodeId} :
      p.node id = .identifier name →
      p.bindingOf? id = some binding → p.constantInit? id binding = some part → Consults p id part

theorem yields_recordMember {text? : Value → Option String} {key : NodeId} (computed : Bool)
    (yields : Yields kind (eval key) (values key)) :
    Yields kind (p.recordMember text? eval key computed)
      (p.evaluateMember text? values key computed) := by
  unfold recordMember evaluateMember
  split
  · exact .bind yields fun v _ => .known _
  · exact .known _

theorem yields_recordKey {key : NodeId} (computed : Bool)
    (yields : Yields kind (eval key) (values key)) :
    Yields kind (p.recordKey eval key computed) (p.evaluateKey values key computed) := by
  unfold recordKey evaluateKey
  cases computed with
  | true =>
    have computes : Yields kind (do known (keyText? (← eval key))) ((values key).bind keyText?) :=
      .bind yields fun v _ => .known _
    cases p.node key <;> exact computes
  | false => cases p.node key <;> first | exact .pure _ | exact .known _

theorem yields_recordEntry {entries : List (String × Value)} {property : NodeId}
    (each : ∀ part ∈ (p.node property).children, Yields kind (eval part) (values part)) :
    Yields kind (p.recordEntry eval entries property)
      (p.evaluateEntry values entries property) := by
  unfold recordEntry evaluateEntry
  cases shape : p.node property with
  | property key value computed =>
    rw [shape] at each
    refine .bind (yields_recordKey computed (each key (by simp [Node.children]))) fun name _ => ?_
    exact .bind (each value (by simp [Node.children])) fun v _ => .pure _
  | _ => exact .known _

theorem yields_recordStep (each : ∀ part, p.Consults id part →
    Yields kind (eval part) (values part)) :
    Yields kind (p.recordStep eval id) (p.evaluateStep values id) := by
  have operand : ∀ part ∈ (p.node id).children, Yields kind (eval part) (values part) :=
    fun part member => each part (.operand member)
  unfold recordStep evaluateStep
  cases shape : p.node id with
  | literal value => exact .pure _
  | identifier name =>
    dsimp only
    cases belongs : p.bindingOf? id with
    | none => exact .known _
    | some binding =>
      refine .bind (.known _)
        fun init found => .bind (each init (.initializer shape belongs found)) fun v _ => .known _
  | array elements =>
    rw [shape] at operand
    exact .bind (.mapM operand) fun items _ => .pure _
  | object properties =>
    refine .bind (.foldlM fun entries property member => yields_recordEntry fun part held => ?_)
      fun entries _ => .pure _
    exact each part (.ofProperty shape member held)
  | unary operator argument =>
    rw [shape] at operand
    dsimp only
    split
    · exact .pure _
    · exact .bind (operand argument (by simp [Node.children])) fun v _ => .known _
  | binary operator left right =>
    rw [shape] at operand
    refine .bind (operand left (by simp [Node.children])) fun x _ => ?_
    exact .bind (operand right (by simp [Node.children])) fun y _ => .known _
  | logical operator left right =>
    rw [shape] at operand
    refine .bind (operand left (by simp [Node.children])) fun x _ => ?_
    split
    · exact .pure x
    · exact operand right (by simp [Node.children])
  | conditional test consequent alternate =>
    rw [shape] at operand
    refine .bind (operand test (by simp [Node.children])) fun x _ => ?_
    split
    · exact operand consequent (by simp [Node.children])
    · exact operand alternate (by simp [Node.children])
  | sequence expressions =>
    rw [shape] at operand
    exact .bind (.mapM operand) fun items _ => .known _
  | member base key computed =>
    rw [shape] at operand
    refine .bind (yields_recordMember computed (operand key (by simp [Node.children])))
      fun name _ => ?_
    have reads : Yields kind (do known (Method.property? (← eval base) name))
        ((values base).bind fun x => Method.property? x name) :=
      .bind (operand base (by simp [Node.children])) fun x _ => .known _
    cases p.globalBase? id base with
    | none => exact reads
    | some global =>
      by_cases isMath : global = "Math"
      · subst isMath
        exact .known _
      · by_cases isNumber : global = "Number"
        · subst isNumber
          exact .known _
        · simpa [isMath, isNumber] using Yields.known none
  | call callee arguments =>
    rw [shape] at operand
    refine .bind (.mapM fun part member => operand part (by simp [Node.children, member]))
      fun args _ => ?_
    cases calleeShape : p.node callee with
    | identifier name => exact .known _
    | member base key computed =>
      have inCallee : ∀ part ∈ (p.node callee).children, Yields kind (eval part) (values part) :=
        fun part held => each part (.ofCallee shape held)
      rw [calleeShape] at inCallee
      refine .bind (yields_recordMember computed (inCallee key (by simp [Node.children])))
        fun method _ => ?_
      have calls : Yields kind (do known (Method.call? (← eval base) method args))
          ((values base).bind fun x => Method.call? x method args) :=
        .bind (inCallee base (by simp [Node.children])) fun x _ => .known _
      cases p.globalBase? id base with
      | none => exact calls
      | some global =>
        by_cases isMath : global = "Math"
        · subst isMath
          exact .known _
        · by_cases isString : global = "String"
          · subst isString
            exact .known _
          · by_cases isNumber : global = "Number"
            · subst isNumber
              exact .known _
            · simpa [isMath, isString, isNumber] using calls
    | _ => exact .known _
  | _ => exact .known _

/-! ### Evaluation at a depth -/

/-- The value that an expression is certain to have at some depth. -/
def evaluateAt (p : Program) (depth : Nat) (id : NodeId) :
    Option Value := p.evaluateWithin (65 - depth) id

theorem evaluateAt_eq (p : Program) (depth : Nat) (id : NodeId) :
    p.evaluateAt depth id =
      if 64 < depth then none else p.evaluateStep (p.evaluateAt (depth + 1)) id := by
  unfold evaluateAt
  split <;> rename_i beyond
  · rw [show 65 - depth = 0 by omega, evaluateWithin]
  · rw [show 65 - depth = (65 - (depth + 1)) + 1 by omega, evaluateWithin_succ]

theorem evaluateAt_mono {smaller : Nat} (known : p.evaluateAt depth id = some v)
    (le : smaller ≤ depth) :
    p.evaluateAt smaller id = some v :=
  evaluateWithin_mono known (Nat.sub_le_sub_left le 65)

/-- An expression that the evaluation of another one consults over a number of steps. -/
inductive Nested (p : Program) : Nat → NodeId → NodeId → Prop where
  | here {id : NodeId} : Nested p 0 id id
  | deeper {n : Nat} {id part inner : NodeId} :
      p.Consults id part → Nested p n part inner → Nested p (n + 1) id inner

def Met (p : Program) (depth : Nat) (id : NodeId) (visit : Visit) : Prop :=
  (∃ n, visit.depth = depth + n ∧ p.Nested n id visit.id) ∧
  visit.value = p.evaluateAt visit.depth visit.id

theorem Met.deeper {visit : Visit} (consults : p.Consults id part)
    (met : p.Met (depth + 1) part visit) :
    p.Met depth id visit := by
  obtain ⟨⟨n, deep, nested⟩, same⟩ := met
  exact ⟨⟨n + 1, by omega, .deeper consults nested⟩, same⟩

theorem yields_recordAt (p : Program) (depth : Nat) (id : NodeId) :
    Yields (p.Met depth id) (p.recordAt depth id) (p.evaluateAt depth id) := by
  induction remaining : 65 - depth generalizing depth id with
  | zero =>
    rw [recordAt, if_pos (by omega)]
    have nothing : p.evaluateAt depth id = none := by rw [evaluateAt_eq, if_pos (by omega)]
    rw [nothing]
    exact .visiting (.known none) ⟨⟨0, rfl, .here⟩, nothing.symm⟩
  | succ remaining induction =>
    rw [recordAt, if_neg (by omega)]
    refine .visiting ?_ ⟨⟨0, rfl, .here⟩, rfl⟩
    rw [evaluateAt_eq, if_neg (by omega)]
    refine yields_recordStep fun part consults =>
      (induction (depth + 1) part (by omega)).mono fun visit => ?_
    exact .deeper consults

/-- A value at some depth is a value at all smaller depths. Evaluation meets expressions as deep as
they are nested, and a value that it has for one of them, even where it comes to no value itself, is
the value of that expression on its own. So one level of evaluation over the values that the parts
have on their own is enough. -/
theorem alone_as_inside (p : Program) :
    (∀ id depth smaller v, smaller ≤ depth → p.evaluateAt depth id = some v →
      p.evaluateAt smaller id = some v) ∧
      (∀ id depth, ∃ visits, (p.recordAt depth id).run.run [] = (p.evaluateAt depth id, visits) ∧
        ∀ visit ∈ visits, (∃ n, visit.depth = depth + n ∧ p.Nested n id visit.id) ∧
          visit.value = p.evaluateAt visit.depth visit.id ∧
          ∀ v, visit.value = some v → p.evaluate? visit.id = some v) ∧
      ∀ id v, p.evaluate? id = some v → p.evaluateStep p.evaluate? id = some v := by
  refine ⟨fun id depth smaller v le known => evaluateAt_mono known le, fun id depth => ?_,
    fun id v known => ?_⟩
  · obtain ⟨visits, ran, each⟩ := p.yields_recordAt depth id []
    refine ⟨visits, ran, fun visit member => ?_⟩
    obtain ⟨nested, same⟩ := each visit member
    exact ⟨nested, same, fun v known => evaluateAt_mono (same.symm.trans known) (Nat.zero_le _)⟩
  · rw [evaluate?, evaluateWithin_succ] at known
    exact evaluateStep_mono (fun part value found => evaluateWithin_mono found (by decide)) known

/-- The tree of `!false && this;`. -/
def partlyKnown : Tree :=
  ⟨#[⟨.literal (.boolean false), some ⟨1⟩⟩, ⟨.unary .not ⟨0⟩, some ⟨3⟩⟩, ⟨.this_, some ⟨3⟩⟩,
    ⟨.logical .and ⟨1⟩ ⟨2⟩, some ⟨4⟩⟩, ⟨.expressionStatement ⟨3⟩, some ⟨5⟩⟩,
    ⟨.program [⟨4⟩], none⟩]⟩

/--
The left operand has a value down to the depth 63, and so on its own, where the whole expression has
none. -/
theorem exists_alone_as_inside : ∃ p, ofTree partlyKnown ⟨5⟩ = .ok p ∧ p.evaluate? ⟨3⟩ = none ∧
    p.evaluateAt 64 ⟨1⟩ = none ∧ p.evaluateAt 63 ⟨1⟩ = some (.bool true) ∧
      p.evaluateAt 1 ⟨1⟩ = some (.bool true) ∧
      ∃ visits, (p.recordAt 0 ⟨3⟩).run.run [] = (none, visits) ∧
        ⟨1, ⟨1⟩, some (.bool true)⟩ ∈ visits ∧
        p.evaluate? ⟨1⟩ = some (.bool true) ∧
        p.evaluateStep p.evaluate? ⟨1⟩ = some (.bool true) := by
  obtain ⟨scopes, made, -⟩ := exists_steady partlyKnown ⟨5⟩
    (Tree.linked_of_checks (by decide)) ⟨by decide, by decide⟩
    (Tree.wellBound_of_bindsWell (by decide)) rfl
  obtain ⟨fewer, inside, level⟩ := alone_as_inside ⟨partlyKnown, ⟨5⟩, scopes, false⟩
  have deep : evaluateAt ⟨partlyKnown, ⟨5⟩, scopes, false⟩ 63 ⟨1⟩ = some (.bool true) := rfl
  obtain ⟨visits, ran, each⟩ := inside ⟨3⟩ 0
  have visited : (recordAt ⟨partlyKnown, ⟨5⟩, scopes, false⟩ 0 ⟨3⟩).run.run [] =
      (none, [⟨2, ⟨0⟩, some (.bool false)⟩, ⟨1, ⟨1⟩, some (.bool true)⟩, ⟨1, ⟨2⟩, none⟩,
        ⟨0, ⟨3⟩, none⟩]) := by cbv
  cases ran.symm.trans visited
  have member : (⟨1, ⟨1⟩, some (.bool true)⟩ : Visit) ∈ [⟨2, ⟨0⟩, some (.bool false)⟩,
      ⟨1, ⟨1⟩, some (.bool true)⟩, ⟨1, ⟨2⟩, none⟩, ⟨0, ⟨3⟩, none⟩] := by simp
  have alone := (each _ member).2.2 _ rfl
  exact ⟨_, made, rfl, rfl, deep, fewer _ _ _ _ (by decide) deep, _, visited, member, alone,
    level _ _ alone⟩

end Program

end Unravel
