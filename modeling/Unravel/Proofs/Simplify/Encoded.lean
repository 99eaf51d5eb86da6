import Unravel.Proofs.Eval.Placed
import Unravel.Proofs.Simplify.Rules
import Unravel.Proofs.Simplify.Run
import Unravel.Simplify.Decoder

/-!
Values that rules write into a program: what constant folding has computed, and what a dispatcher
has answered. The written expression has the value again if no global name in it means anything
where it is put; both rules make sure of less.
-/

namespace Unravel

open Value

variable {p after : Program} {c : Context} {target placed replacement id : NodeId} {v : Value}

namespace SimplifyM

theorem exists_placing (steady : p.Steady) (attached : p.isAttached target = true)
    (free : ¬p.tree.Binds target) (exchangeable : (p.node target).isExchangeable = true) (v : Value)
    (kind : EventKind) (label : String) :
    ∃ after c', replaceAndRecord kind label target (v.encode p.tree).1
        ⟨{ p with tree := (v.encode p.tree).2 }, c⟩ = .ok () ⟨after, c'⟩ ∧
      p.Placing target v (v.encode p.tree).1 (v.encode p.tree).2 after := by
  obtain ⟨after, done, placing⟩ := steady.exists_placing attached free exchangeable v
  obtain ⟨c', recorded⟩ := replaceAndRecord_eq kind label done
  exact ⟨after, c', recorded, placing⟩

end SimplifyM

/-- A node stands where another one stood, has a value, and mentions no variable. -/
structure Program.Denotes (p after : Program) (target placed : NodeId) (v : Value) : Prop where
  attached : after.isAttached placed = true
  place : after.tree.parent? placed = p.tree.parent? target
  value : after.evaluate? placed = some v
  global : ∀ id, after.tree.isWithin id placed = true → after.bindingOf? id = none

theorem Program.Placing.denotes {grown : Tree} (placing : p.Placing target v placed grown after)
    (unbound : ∀ name ∈ v.globals, p.isUnbound target name = true) (keyed : v.Keyed)
    (shallow : v.nesting ≤ 63) : p.Denotes after target placed v where
  attached := placing.isWithin_placed
  place := by
    rw [placing.edited.parent?_new placing.possible rfl,
      placing.grows.parent? placing.allocatedTarget]
  value := placing.evaluateWithin_eq unbound keyed (by omega)
  global _ within := placing.bindingOf?_of_within unbound within

theorem Folding.free_of_isCandidate (steady : p.Steady)
    (isCandidate : Folding.isCandidate (p.node id) = true) :
    ¬p.tree.Binds id ∧ (p.node id).isExchangeable = true := by
  constructor
  · intro binds
    have form := steady.wellBound.pattern binds
    cases shape : p.node id <;> simp_all [Folding.isCandidate, Program.node, Node.isPattern]
  · cases shape : p.node id <;> simp_all [Folding.isCandidate, Node.isExchangeable, Node.isSilent,
      Node.isDeclarator]

/-- A planned fold puts the expression for the value into the place of what was folded, unless that
is the same expression. -/
theorem Folding.exists_step (steady : p.Steady) (attached : p.isAttached id = true)
    (isCandidate : Folding.isCandidate (p.node id) = true)
    (planned : Folding.plan? p id = some v) :
    ∃ w, Folding.step id ⟨p, c⟩ = .ok (!(v.encode p.tree).2.agrees (v.encode p.tree).1 id) w ∧
      ((v.encode p.tree).2.agrees (v.encode p.tree).1 id = false →
        p.Placing id v (v.encode p.tree).1 (v.encode p.tree).2 w.program) := by
  obtain ⟨free, exchangeable⟩ := Folding.free_of_isCandidate steady isCandidate
  obtain ⟨after, c', recorded, placing⟩ :=
    SimplifyM.exists_placing (c := c) steady attached free exchangeable v .constantFolded ""
  have stepped : Folding.step id ⟨p, c⟩ =
      (if (v.encode p.tree).2.agrees (v.encode p.tree).1 id then pure false
      else do
        SimplifyM.replaceAndRecord .constantFolded "" id (v.encode p.tree).1
        return true : SimplifyM Bool) ⟨{ p with tree := (v.encode p.tree).2 }, c⟩ := by
    rw [Folding.step, SimplifyM.program_bind, planned]
    rfl
  rw [stepped]
  cases (v.encode p.tree).2.agrees (v.encode p.tree).1 id with
  | true => exact ⟨_, rfl, fun changed => by cases changed⟩
  | false => exact ⟨⟨after, c'⟩, SimplifyM.bind_of_ok _ recorded, fun _ => placing⟩

/-- The result of a dispatcher is put into the place of its call, whatever it is. -/
theorem Decoder.exists_callStep {primitive : Primitive} (steady : p.Steady)
    (attached : p.isAttached id = true) (answered : Decoder.result? p primitive id = some v) : ∃ w,
    Decoder.callStep primitive id ⟨p, c⟩ = .ok true w ∧
      p.Placing id v (v.encode p.tree).1 (v.encode p.tree).2 w.program := by
  have isCandidate : Folding.isCandidate (p.node id) = true := by
    unfold Decoder.result? at answered
    cases shape : p.node id <;> simp_all [Folding.isCandidate]
  obtain ⟨free, exchangeable⟩ := Folding.free_of_isCandidate steady isCandidate
  obtain ⟨after, c', recorded, placing⟩ :=
    SimplifyM.exists_placing (c := c) steady attached free exchangeable v .dispatcherResolved ""
  refine ⟨⟨after, c'⟩, ?_, placing⟩
  rw [Decoder.callStep, SimplifyM.program_bind, answered]
  exact SimplifyM.bind_of_ok _ recorded

/-- What folding and a dispatcher's result put into the place of an expression has the value that
was computed, where no global name that it needs means anything. -/
theorem denotes_after_encoding (steady : p.Steady) (attached : p.isAttached id = true)
    (keyed : v.Keyed) (shallow : v.nesting ≤ 30)
    (unbound : ∀ name ∈ v.globals, p.isUnbound id name = true) :
    (Folding.isCandidate (p.node id) = true → p.evaluate? id = some v → ∃ w,
      Folding.step id ⟨p, c⟩ = .ok (!(v.encode p.tree).2.agrees (v.encode p.tree).1 id) w ∧
        ((v.encode p.tree).2.agrees (v.encode p.tree).1 id = false →
          p.Denotes w.program id (v.encode p.tree).1 v)) ∧
    ∀ primitive, Decoder.result? p primitive id = some v → ∃ w,
      Decoder.callStep primitive id ⟨p, c⟩ = .ok true w ∧
      p.Denotes w.program id (v.encode p.tree).1 v := by
  have limited : v.nesting ≤ 63 := by omega
  constructor
  · intro isCandidate evaluated
    have planned : Folding.plan? p id = some v := by
      rw [Folding.plan?, evaluated, Option.filter_some, neededGlobal?_eq, if_pos]
      cases names : v.globals with
      | nil => rfl
      | cons first rest => exact unbound first (by simp [names])
    obtain ⟨w, stepped, placing⟩ := Folding.exists_step (c := c) steady attached isCandidate planned
    exact ⟨w, stepped, fun different => (placing different).denotes unbound keyed limited⟩
  · intro primitive answered
    obtain ⟨w, stepped, placing⟩ := Decoder.exists_callStep (c := c) steady attached answered
    exact ⟨w, stepped, placing.denotes unbound keyed limited⟩

/-! ### A global name that is not the first -/

/-- The tree of `function f(…) { return true && [void 0, 0 / 0]; }` with one parameter. -/
def returnedPair (param : String) : Tree :=
  ⟨#[⟨.identifier "f", some ⟨12⟩⟩, ⟨.identifier param, some ⟨12⟩⟩,
    ⟨.literal (.boolean true), some ⟨9⟩⟩, ⟨.literal (.number 0.0), some ⟨4⟩⟩,
    ⟨.unary .void ⟨3⟩, some ⟨8⟩⟩, ⟨.literal (.number 0.0), some ⟨7⟩⟩,
    ⟨.literal (.number 0.0), some ⟨7⟩⟩, ⟨.binary .div ⟨5⟩ ⟨6⟩, some ⟨8⟩⟩,
    ⟨.array [⟨4⟩, ⟨7⟩], some ⟨9⟩⟩, ⟨.logical .and ⟨2⟩ ⟨8⟩, some ⟨10⟩⟩,
    ⟨.return_ (some ⟨9⟩), some ⟨11⟩⟩, ⟨.block [⟨10⟩], some ⟨12⟩⟩,
    ⟨.function ⟨.declaration, some ⟨0⟩, [⟨1⟩], ⟨11⟩, false, false⟩, some ⟨13⟩⟩,
    ⟨.program [⟨12⟩], none⟩]⟩

def pairValue : Value := .array [.undefined, .number nan]

theorem keyed_pairValue : pairValue.Keyed := by
  refine .array fun item member => ?_
  simp only [List.mem_cons, List.not_mem_nil, or_false] at member
  rcases member with rfl | rfl <;> exact .primitive rfl

theorem globals_pairValue : pairValue.globals = ["undefined", "NaN"] := rfl

theorem evaluate?_returnedPair (param : String) (scopes : Scopes) :
    Program.evaluate? ⟨returnedPair param, ⟨13⟩, scopes, false⟩ ⟨9⟩ = some pairValue := rfl

theorem agrees_returnedPair (param : String) : (pairValue.encode (returnedPair param)).2.agrees
    (pairValue.encode (returnedPair param)).1 ⟨9⟩ = false := by
  rw [Tree.agrees, Term.agrees]
  rfl

/-- The tree of `d(void 0, 0 / 0);`. -/
def decodedPair : Tree :=
  ⟨#[⟨.identifier "d", some ⟨6⟩⟩, ⟨.literal (.number 0.0), some ⟨2⟩⟩, ⟨.unary .void ⟨1⟩, some ⟨6⟩⟩,
    ⟨.literal (.number 0.0), some ⟨5⟩⟩, ⟨.literal (.number 0.0), some ⟨5⟩⟩,
    ⟨.binary .div ⟨3⟩ ⟨4⟩, some ⟨6⟩⟩, ⟨.call ⟨0⟩ [⟨2⟩, ⟨5⟩], some ⟨7⟩⟩,
    ⟨.expressionStatement ⟨6⟩, some ⟨8⟩⟩, ⟨.program [⟨7⟩], none⟩]⟩

/-- Where neither `undefined` nor `NaN` is declared, the pair is folded to what has its value, and
so is the call of a dispatcher that answers with the pair of its arguments. -/
theorem exists_denotes_after_encoding :
    (∃ p w, Program.ofTree (returnedPair "x") ⟨13⟩ = .ok p ∧
      Folding.step ⟨9⟩ ⟨p, default⟩ = .ok true w ∧
      p.Denotes w.program ⟨9⟩ ⟨16⟩ pairValue) ∧
    ∃ p w, Program.ofTree decodedPair ⟨8⟩ = .ok p ∧
      Decoder.callStep (fun arguments => some (.array arguments)) ⟨6⟩ ⟨p, default⟩ = .ok true w ∧
        p.Denotes w.program ⟨6⟩ ⟨11⟩ pairValue := by
  constructor
  · obtain ⟨scopes, made, steady⟩ := Program.exists_steady (returnedPair "x") ⟨13⟩
      (Tree.linked_of_checks (by decide)) ⟨by decide, by decide⟩
      (Tree.wellBound_of_bindsWell (by decide)) rfl
    have attached : (returnedPair "x").isWithin ⟨9⟩ ⟨13⟩ = true := by decide
    have unbound : ∀ name ∈ pairValue.globals,
        Program.isUnbound ⟨returnedPair "x", ⟨13⟩, scopes, false⟩ ⟨9⟩ name = true := by
      simp only [steady.sound.isUnbound_iff attached]
      change ∀ name ∈ ["undefined", "NaN"],
        ((returnedPair "x").lexicon ⟨13⟩).look? ((returnedPair "x").sight ⟨9⟩) name = none
      decide
    obtain ⟨w, stepped, denotes⟩ :=
      (denotes_after_encoding (c := default) steady rfl keyed_pairValue (by decide) unbound).1 rfl
        (evaluate?_returnedPair "x" scopes)
    have different := agrees_returnedPair "x"
    refine ⟨_, w, made, ?_, denotes different⟩
    rw [stepped]
    exact congrArg (fun agrees => EStateM.Result.ok (!agrees) w) different
  · obtain ⟨scopes, made, steady⟩ := Program.exists_steady decodedPair ⟨8⟩
      (Tree.linked_of_checks (by decide)) ⟨by decide, by decide⟩
      (Tree.wellBound_of_bindsWell (by decide)) rfl
    have attached : decodedPair.isWithin ⟨6⟩ ⟨8⟩ = true := by decide
    have unbound : ∀ name ∈ pairValue.globals,
        Program.isUnbound ⟨decodedPair, ⟨8⟩, scopes, false⟩ ⟨6⟩ name = true := by
      simp only [steady.sound.isUnbound_iff attached]
      change ∀ name ∈ ["undefined", "NaN"],
        (decodedPair.lexicon ⟨8⟩).look? (decodedPair.sight ⟨6⟩) name = none
      decide
    obtain ⟨w, stepped, denotes⟩ :=
      (denotes_after_encoding (c := default) steady rfl keyed_pairValue (by decide) unbound).2
        (fun arguments => some (.array arguments)) rfl
    exact ⟨_, w, made, stepped, denotes⟩

/-- Where the parameter is called `NaN`, the same pair is folded to what has no value: the second
element is the parameter. -/
theorem exists_folding_to_parameter : ∃ p, Program.ofTree (returnedPair "NaN") ⟨13⟩ = .ok p ∧
    p.evaluate? ⟨9⟩ = some pairValue ∧ ∃ w, Folding.step ⟨9⟩ ⟨p, default⟩ = .ok true w ∧
      w.program.tree.parent? ⟨16⟩ = p.tree.parent? ⟨9⟩ ∧ w.program.evaluate? ⟨16⟩ = none := by
  obtain ⟨scopes, made, steady⟩ := Program.exists_steady (returnedPair "NaN") ⟨13⟩
    (Tree.linked_of_checks (by decide)) ⟨by decide, by decide⟩
    (Tree.wellBound_of_bindsWell (by decide)) rfl
  have attached : (returnedPair "NaN").isWithin ⟨9⟩ ⟨13⟩ = true := by decide
  have planned : Folding.plan? ⟨returnedPair "NaN", ⟨13⟩, scopes, false⟩ ⟨9⟩ = some pairValue := by
    rw [Folding.plan?, evaluate?_returnedPair, Option.filter_some, neededGlobal?_eq,
      globals_pairValue, if_pos]
    change Program.isUnbound _ _ _ = true
    rw [steady.sound.isUnbound_iff attached]
    change ((returnedPair "NaN").lexicon ⟨13⟩).look? ((returnedPair "NaN").sight ⟨9⟩) "undefined" =
      none
    decide
  obtain ⟨w, stepped, placing⟩ := Folding.exists_step (c := default) steady rfl rfl planned
  have different := agrees_returnedPair "NaN"
  have isPlacing := placing different
  refine ⟨_, made, evaluate?_returnedPair "NaN" scopes, w, ?_, ?_, ?_⟩
  · rw [stepped]
    exact congrArg (fun agrees => EStateM.Result.ok (!agrees) w) different
  · exact isPlacing.edited.parent?_new isPlacing.possible rfl
  · have tree : w.program.tree = (pairValue.encode (returnedPair "NaN")).2.replace ⟨9⟩ ⟨16⟩ :=
      isPlacing.tree
    have root : w.program.root = ⟨13⟩ := isPlacing.root
    have isParameter : (w.program.lexicon.meaning? ⟨15⟩).map (·.kind) = some .param := by
      rw [Program.lexicon, tree, root]
      decide
    obtain ⟨d, means, kind⟩ := Option.map_eq_some_iff.mp isParameter
    obtain ⟨binding, belongs, stands⟩ := isPlacing.afterSteady.sound.exists_of_meaning? means
    have second : w.program.node ⟨15⟩ = .identifier "NaN" := by
      rw [Program.node, tree]
      rfl
    have array : w.program.node ⟨16⟩ = .array [⟨14⟩, ⟨15⟩] := by
      rw [Program.node, tree]
      rfl
    have noValue : w.program.evaluateWithin 64 ⟨15⟩ = none :=
      Program.evaluateWithin_of_kind belongs (by rw [Program.binding, stands.kind, kind]; rfl)
        second
    rw [Program.evaluate?, Program.evaluateWithin_succ, Program.evaluateStep, array]
    simp [noValue]

end Unravel
