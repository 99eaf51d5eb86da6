import Mathlib.Tactic.Common
import Unravel.Eval.Expression

/-!
One level of evaluation, over the values of the parts (`Program.evaluateStep`). A limit that is
large enough for a value is as good as any larger one (`Program.evaluateWithin_mono`).
-/

namespace Unravel.Program

variable {p : Program} {eval more : NodeId → Option Value} {id : NodeId} {v : Value}
  {limit larger : Nat}

/-- The key of a property. -/
def evaluateKey (p : Program) (eval : NodeId → Option Value) (key : NodeId) (computed : Bool) :
    Option String :=
  match p.node key, computed with
  | .identifier name, false => some name
  | .literal value, false => some (Value.ofLiteral value).toText
  | _, true => (eval key).bind keyText?
  | _, false => none

/-- The entries of an object with one more property. -/
def evaluateEntry (p : Program) (eval : NodeId → Option Value) (entries : List (String × Value))
    (property : NodeId) : Option (List (String × Value)) :=
  match p.node property with
  | .property key value computed => do
    let key ← p.evaluateKey eval key computed
    return Value.setEntry key (← eval value) entries
  | _ => none

/-- The name of a member that is read or called. -/
def evaluateMember (p : Program) (text? : Value → Option String) (eval : NodeId → Option Value)
    (key : NodeId) (computed : Bool) : Option String :=
  if computed then (eval key).bind text? else (p.node key).identifier?

/-- The global name that stands before a member. -/
def globalBase? (p : Program) (id base : NodeId) : Option String :=
  (p.node base).identifier?.filter (p.isUnbound id)

/-- The value of an expression by the values of its parts. -/
def evaluateStep (p : Program) (eval : NodeId → Option Value) (id : NodeId) : Option Value :=
  match p.node id with
  | .literal value => some (Value.ofLiteral value)
  | .identifier name =>
    match p.bindingOf? id with
    | none => globalValue? name
    | some binding => do
      let value ← eval (← p.constantInit? id binding)
      if value.isPrimitive then some value else none
  | .array elements => do return .array (← elements.mapM eval)
  | .object properties => do return .object (← properties.foldlM (p.evaluateEntry eval) [])
  | .unary operator argument =>
    if operator = .typeOf && (p.node argument).isFunction then some (.string "function")
    else (eval argument).bind operator.result?
  | .binary operator left right => do operator.result? (← eval left) (← eval right)
  | .logical operator left right => do
    let value ← eval left
    if operator.keepsLeft value then some value else eval right
  | .conditional test consequent alternate => do
    if (← eval test).toBool then eval consequent else eval alternate
  | .sequence expressions => do (← expressions.mapM eval).getLast?
  | .member base key computed => do
    let key ← p.evaluateMember keyText? eval key computed
    match p.globalBase? id base with
    | some "Math" => (Builtin.mathConstant? key).map .number
    | some "Number" => (Builtin.numberConstant? key).map .number
    | some _ => none
    | none => Method.property? (← eval base) key
  | .call callee arguments => do
    let args ← arguments.mapM eval
    match p.node callee with
    | .identifier name => if p.isUnbound id name then Builtin.global? name args else none
    | .member base key computed =>
      let method ← p.evaluateMember Value.asString? eval key computed
      match p.globalBase? id base with
      | some "Math" => Builtin.math? method args
      | some "String" => Builtin.string? method args
      | some "Number" => Builtin.number? method args
      | _ => Method.call? (← eval base) method args
    | _ => none
  | _ => none

theorem evaluateWithin_succ (p : Program) (limit : Nat) (id : NodeId) :
    p.evaluateWithin (limit + 1) id = p.evaluateStep (p.evaluateWithin limit) id := by
  rw [evaluateWithin, evaluateStep]
  cases p.node id with
  | object properties =>
    have each (f : List (String × Value) → NodeId → Option (List (String × Value)))
        (same : f = p.evaluateEntry (p.evaluateWithin limit)) :
        (do return Value.object (← properties.foldlM f [])) =
          (do return .object (← properties.foldlM (p.evaluateEntry (p.evaluateWithin limit))
            [])) := by
      rw [same]
    refine each _ (funext fun entries => funext fun property => ?_)
    unfold evaluateEntry evaluateKey
    cases p.node property with
    | property key value computed =>
      dsimp only
      cases p.node key <;> cases computed <;> rfl
    | _ => rfl
  | member base key computed => cases computed <;> rfl
  | call callee arguments =>
    dsimp only
    congr 1
    funext args
    cases p.node callee with
    | member base key computed => cases computed <;> rfl
    | _ => rfl
  | _ => rfl

theorem evaluateWithin_of_kind {binding : BindingId} {name : String}
    (belongs : p.bindingOf? id = some binding)
    (kind : (p.binding binding).kind.isVariable = false) (shape : p.node id = .identifier name) :
    p.evaluateWithin limit id = none := by
  have noInit : p.constantInit? id binding = none := by
    rw [constantInit?]
    simp [kind]
  cases limit with
  | zero => rfl
  | succ limit =>
    rw [evaluateWithin_succ, evaluateStep, shape]
    simp [belongs, noInit]

/-! ### Results of lists -/

section Lists

variable {α β : Type}

theorem mapM_mono {f g : α → Option β} {l : List α} {results : List β}
    (better : ∀ a ∈ l, ∀ b, f a = some b → g a = some b) (made : l.mapM f = some results) :
    l.mapM g = some results := by
  induction l generalizing results with
  | nil => exact made
  | cons a rest induction =>
    rw [List.forall_mem_cons] at better
    rw [List.mapM_cons] at made ⊢
    simp only [Option.bind_eq_bind, Option.bind_eq_some_iff, Option.pure_def] at made ⊢
    obtain ⟨b, first, others, rest, same⟩ := made
    exact ⟨b, better.1 b first, others, induction better.2 rest, same⟩

theorem exists_of_mapM {f : α → Option β} {l : List α} {results : List β}
    (made : l.mapM f = some results) :
    ∀ a ∈ l, ∃ b, f a = some b := by
  induction l generalizing results with
  | nil => simp
  | cons a rest induction =>
    rw [List.mapM_cons] at made
    obtain ⟨b, first, made⟩ := Option.bind_eq_some_iff.mp made
    obtain ⟨others, made, -⟩ := Option.bind_eq_some_iff.mp made
    rw [List.forall_mem_cons]
    exact ⟨⟨b, first⟩, induction made⟩

theorem foldlM_mono {f g : β → α → Option β} {l : List α} {start result : β}
    (better : ∀ acc, ∀ a ∈ l, ∀ b, f acc a = some b → g acc a = some b)
    (made : l.foldlM f start = some result) : l.foldlM g start = some result := by
  induction l generalizing start with
  | nil => exact made
  | cons a rest induction =>
    rw [List.foldlM_cons] at made ⊢
    simp only [Option.bind_eq_bind, Option.bind_eq_some_iff] at made ⊢
    obtain ⟨acc, first, others⟩ := made
    exact ⟨acc, better start a (List.mem_cons_self ..) acc first,
      induction (fun acc a member => better acc a (List.mem_cons_of_mem _ member)) others⟩

end Lists

/-! ### More information -/

section More

variable (better : ∀ part v, eval part = some v → more part = some v)

include better

theorem bind_mono {β : Type} {part : NodeId} {f : Value → Option β} {b : β}
    (made : (eval part).bind f = some b) : (more part).bind f = some b := by
  obtain ⟨v, found, rest⟩ := Option.bind_eq_some_iff.mp made
  exact Option.bind_eq_some_iff.mpr ⟨v, better part v found, rest⟩

theorem evaluateKey_mono {key : NodeId} {computed : Bool} {name : String}
    (made : p.evaluateKey eval key computed = some name) :
    p.evaluateKey more key computed = some name := by
  unfold evaluateKey at made ⊢
  split at made <;> simp_all [bind_mono better]

theorem evaluateEntry_mono {entries result : List (String × Value)} {property : NodeId}
    (made : p.evaluateEntry eval entries property = some result) :
    p.evaluateEntry more entries property = some result := by
  unfold evaluateEntry at made ⊢
  split at made
  · simp only [Option.bind_eq_bind, Option.bind_eq_some_iff, Option.pure_def] at made ⊢
    obtain ⟨name, isKey, v, found, same⟩ := made
    exact ⟨name, evaluateKey_mono better isKey, v, better _ v found, same⟩
  · cases made

theorem evaluateMember_mono {text? : Value → Option String} {key : NodeId} {computed : Bool}
    {name : String} (made : p.evaluateMember text? eval key computed = some name) :
    p.evaluateMember text? more key computed = some name := by
  cases computed with
  | true => exact bind_mono better made
  | false => exact made

theorem evaluateStep_mono (made : p.evaluateStep eval id = some v) :
    p.evaluateStep more id = some v := by
  unfold evaluateStep at made ⊢
  cases shape : p.node id with
  | literal => simpa [shape] using made
  | identifier name =>
    simp only [shape] at made ⊢
    split at made
    · exact made
    · simp only [Option.bind_eq_bind, Option.bind_eq_some_iff] at made ⊢
      obtain ⟨init, found, value, isValue, rest⟩ := made
      exact ⟨init, found, value, better _ _ isValue, rest⟩
  | array elements =>
    simp only [shape, Option.bind_eq_bind, Option.bind_eq_some_iff] at made ⊢
    obtain ⟨items, found, rest⟩ := made
    exact ⟨items, mapM_mono (fun part _ => better part) found, rest⟩
  | object properties =>
    simp only [shape, Option.bind_eq_bind, Option.bind_eq_some_iff] at made ⊢
    obtain ⟨entries, found, rest⟩ := made
    exact ⟨entries, foldlM_mono (fun _ _ _ _ => evaluateEntry_mono better) found, rest⟩
  | unary operator argument =>
    simp only [shape] at made ⊢
    split at made <;> rename_i isFunction
    · rwa [if_pos isFunction]
    · rw [if_neg isFunction]
      exact bind_mono better made
  | binary operator left right =>
    simp only [shape, Option.bind_eq_bind, Option.bind_eq_some_iff] at made ⊢
    obtain ⟨x, isLeft, y, isRight, rest⟩ := made
    exact ⟨x, better _ _ isLeft, y, better _ _ isRight, rest⟩
  | logical operator left right =>
    simp only [shape, Option.bind_eq_bind, Option.bind_eq_some_iff] at made ⊢
    obtain ⟨x, isLeft, rest⟩ := made
    refine ⟨x, better _ _ isLeft, ?_⟩
    split at rest <;> rename_i keeps
    · rwa [if_pos keeps]
    · rw [if_neg keeps]
      exact better _ _ rest
  | conditional test consequent alternate =>
    simp only [shape, Option.bind_eq_bind, Option.bind_eq_some_iff] at made ⊢
    obtain ⟨x, isTest, rest⟩ := made
    refine ⟨x, better _ _ isTest, ?_⟩
    split at rest <;> rename_i holds
    · rw [if_pos holds]
      exact better _ _ rest
    · rw [if_neg holds]
      exact better _ _ rest
  | sequence expressions =>
    simp only [shape, Option.bind_eq_bind, Option.bind_eq_some_iff] at made ⊢
    obtain ⟨items, found, rest⟩ := made
    exact ⟨items, mapM_mono (fun part _ => better part) found, rest⟩
  | member base key computed =>
    simp only [shape, Option.bind_eq_bind, Option.bind_eq_some_iff] at made ⊢
    obtain ⟨name, isKey, rest⟩ := made
    refine ⟨name, evaluateMember_mono better isKey, ?_⟩
    split at rest
    · exact rest
    · exact rest
    · cases rest
    · obtain ⟨x, isBase, rest⟩ := Option.bind_eq_some_iff.mp rest
      exact Option.bind_eq_some_iff.mpr ⟨x, better _ _ isBase, rest⟩
  | call callee arguments =>
    simp only [shape, Option.bind_eq_bind, Option.bind_eq_some_iff] at made ⊢
    obtain ⟨args, found, rest⟩ := made
    refine ⟨args, mapM_mono (fun part _ => better part) found, ?_⟩
    split at rest
    · exact rest
    · simp only [Option.bind_eq_some_iff] at rest ⊢
      obtain ⟨method, isKey, rest⟩ := rest
      refine ⟨method, evaluateMember_mono better isKey, ?_⟩
      split at rest
      · exact rest
      · exact rest
      · exact rest
      · rename_i noGlobal _ _
        simp only [Option.bind_eq_some_iff] at rest
        obtain ⟨x, isBase, rest⟩ := rest
        simp_all
    · cases rest
  | _ => simp [shape] at made

end More

theorem evaluateWithin_mono (made : p.evaluateWithin limit id = some v) (le : limit ≤ larger) :
    p.evaluateWithin larger id = some v := by
  induction limit generalizing larger id v with
  | zero => cases made
  | succ limit induction =>
    cases larger with
    | zero => cases le
    | succ larger =>
      rw [evaluateWithin_succ] at made ⊢
      exact evaluateStep_mono (fun part value found => induction found (Nat.le_of_succ_le_succ le))
        made

/-- Whatever the limits are, an expression has one value. -/
theorem evaluateWithin_unique {other : Nat} {w : Value} (first : p.evaluateWithin limit id = some v)
    (second : p.evaluateWithin other id = some w) : v = w := by
  have first := evaluateWithin_mono first (Nat.le_max_left limit other)
  have second := evaluateWithin_mono second (Nat.le_max_right limit other)
  exact Option.some.inj (first.symm.trans second)

end Unravel.Program
