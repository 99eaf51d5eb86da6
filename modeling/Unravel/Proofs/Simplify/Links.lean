import Mathlib.Data.List.Nodup
import Mathlib.Logic.Relation
import Unravel.Proofs.Program.Meaning
import Unravel.Proofs.Tree.Order
import Unravel.Simplify.Alias

/-!
Chains in a finite map. A walk along a chain comes to an end, since each of its turns leaves a key
of the map behind that it has not been at before (`Chain.wellFounded_turn`). It stops at the end of
its chain or, if the chain has none, at the first key that the chain visits twice, which lies on a
circle (`Chain.arrives`).

The links between aliases. Every link leads to a variable that is declared further in front, so that
no chain of links comes back to where it started (`Alias.Links.acyclic`), and following one arrives
at a binding without a link (`Chain.ends_last`).
-/

namespace Unravel.Chain

open Relation (ReflTransGen TransGen)

variable {κ : Type} [DecidableEq κ] [Hashable κ] {next : Std.HashMap κ κ}
  {start last other current target : κ} {visited : List κ} {limit i j n : Nat}

/-- A key leads to the one that the map has for it. -/
def Step (next : Std.HashMap κ κ) (key target : κ) : Prop := next[key]? = some target

/-- No chain comes back to a key. -/
def Acyclic (next : Std.HashMap κ κ) : Prop := ∀ key, ¬Relation.TransGen (Step next) key key

/-- The chain that starts at a key ends at another one. -/
structure Ends (next : Std.HashMap κ κ) (start last : κ) : Prop where
  reaches : Relation.ReflTransGen (Step next) start last
  stops : next[last]? = none

theorem Step.unique (step : Step next start target) (further : Step next start other) :
    target = other :=
  Option.some.inj (step.symm.trans further)

namespace Ends

theorem refl (stops : next[start]? = none) : Ends next start start := ⟨.refl, stops⟩

theorem head (step : Step next start other) (ends : Ends next other last) : Ends next start last :=
  ⟨.head step ends.reaches, ends.stops⟩

theorem of_reaches (ends : Ends next start last) (reaches : ReflTransGen (Step next) start other) :
    Ends next other last := by
  induction reaches with
  | refl => exact ends
  | tail _ step induction =>
    rcases induction.reaches.cases_head with rfl | ⟨key, further, rest⟩
    · rw [Step, induction.stops] at step
      cases step
    · exact ⟨step.unique further ▸ rest, induction.stops⟩

theorem unique (first : Ends next start last) (second : Ends next start other) : last = other := by
  rcases (second.of_reaches first.reaches).reaches.cases_head with same | ⟨key, step, -⟩
  · exact same
  · rw [Step, first.stops] at step
    cases step

theorem not_transGen (ends : Ends next start last) : ¬TransGen (Step next) start start := by
  obtain ⟨reaches, stops⟩ := ends
  induction reaches using ReflTransGen.head_induction_on with
  | refl =>
    intro circle
    obtain ⟨key, step, -⟩ := TransGen.head'_iff.mp circle
    rw [Step, stops] at step
    cases step
  | head step _ induction =>
    intro circle
    obtain ⟨key, further, rest⟩ := TransGen.head'_iff.mp circle
    exact induction (.tail' (step.unique further ▸ rest) step)

end Ends

/-! ### The walk along a chain -/

/--
How far a walk along a chain has come: the keys that it has left behind, the last one first, and
where it is. -/
structure Walk (κ : Type) where
  visited : List κ
  current : κ

/-- A walk goes on from a key that it has not been at before. -/
inductive Turn (next : Std.HashMap κ κ) : Walk κ → Walk κ → Prop where
  | go {visited : List κ} {current target : κ} : Step next current target → current ∉ visited →
      Turn next ⟨visited, current⟩ ⟨current :: visited, target⟩

/-- A walk is over. -/
def Halted (next : Std.HashMap κ κ) (walk : Walk κ) : Prop := ∀ after, ¬Turn next walk after

theorem halted_iff :
    Halted next ⟨visited, current⟩ ↔ next[current]? = none ∨ current ∈ visited := by
  constructor
  · intro halted
    rw [or_iff_not_imp_right]
    intro isNew
    cases step : next[current]? with
    | none => rfl
    | some target => exact absurd (.go step isNew) (halted _)
  · rintro ended _ ⟨step, isNew⟩
    rw [Step] at step
    rcases ended with stops | member
    · rw [stops] at step
      cases step
    · exact isNew member

/-- How many keys of the map a walk has not left behind. -/
def ahead (next : Std.HashMap κ κ) (visited : List κ) :
    Nat := (next.keys.filter (· ∉ visited)).length

theorem ahead_lt (step : Step next current target) (isNew : current ∉ visited) :
    ahead next (current :: visited) < ahead next visited := by
  have isKey : current ∈ next.keys := by
    rw [Std.HashMap.mem_keys, ← Std.HashMap.isSome_getElem?_iff_mem, step]
    rfl
  have split : next.keys.filter (· ∉ current :: visited) =
      (next.keys.filter (· ∉ visited)).filter (· ≠ current) := by
    rw [List.filter_filter]
    congr 1
    funext key
    simp
  rw [ahead, split]
  refine List.length_filter_lt_length_iff_exists.mpr ⟨current, ?_, by simp⟩
  simp [isKey, isNew]

theorem wellFounded_turn (next : Std.HashMap κ κ) :
    WellFounded fun after before => Turn next before after := by
  refine Subrelation.wf ?_ (measure fun walk : Walk κ => ahead next walk.visited).wf
  rintro _ _ ⟨step, isNew⟩
  exact ahead_lt step isNew

theorem exists_halted (enough : ahead next visited < limit) : ∃ passed,
    ReflTransGen (Turn next) ⟨visited, current⟩ ⟨passed, follow next limit visited current⟩ ∧
      Halted next ⟨passed, follow next limit visited current⟩ := by
  induction limit generalizing visited current with
  | zero => omega
  | succ limit induction =>
    rw [follow]
    cases step : next[current]? with
    | none => exact ⟨visited, .refl, halted_iff.mpr (.inl step)⟩
    | some target =>
      dsimp only
      split
      · rename_i member
        exact ⟨visited, .refl, halted_iff.mpr (.inr member)⟩
      · rename_i isNew
        have fewer := ahead_lt step isNew
        have enoughLater : ahead next (current :: visited) < limit := by omega
        obtain ⟨passed, walks, halted⟩ := @induction target (current :: visited) enoughLater
        exact ⟨passed, .head (.go step isNew) walks, halted⟩

/-! ### Where a walk is over -/

/-- The key that a chain has come to after some steps. -/
def key? (next : Std.HashMap κ κ) (start : κ) : Nat → Option κ
  | 0 => some start
  | n + 1 => (key? next start n).bind (next[·]?)

theorem reaches_of_key? (found : key? next start n = some last) :
    ReflTransGen (Step next) start last := by
  induction n generalizing last with
  | zero =>
    cases found
    exact .refl
  | succ n induction =>
    obtain ⟨before, found, step⟩ := Option.bind_eq_some_iff.mp found
    exact .tail (induction found) step

theorem transGen_of_key? (lt : i < j) (first : key? next start i = some other)
    (second : key? next start j = some last) :
    TransGen (Step next) other last := by
  induction j generalizing last with
  | zero => omega
  | succ j induction =>
    obtain ⟨before, found, step⟩ := Option.bind_eq_some_iff.mp second
    rcases Nat.lt_succ_iff_lt_or_eq.mp lt with earlier | rfl
    · exact .tail (induction earlier found) step
    · exact .single (Option.some.inj (first.symm.trans found) ▸ step)

/--
A key is the first one that a chain visits twice: all keys up to its second visit are different. -/
def FirstTwice (next : Std.HashMap κ κ) (start key : κ) : Prop :=
  ∃ i j, i < j ∧ key? next start i = some key ∧ key? next start j = some key ∧
    ∀ a b, a < b → b < j → key? next start a ≠ key? next start b

theorem FirstTwice.reaches (twice : FirstTwice next start last) :
    ReflTransGen (Step next) start last := by
  obtain ⟨i, -, -, first, -⟩ := twice
  exact reaches_of_key? first

theorem FirstTwice.transGen (twice : FirstTwice next start last) :
    TransGen (Step next) last last := by
  obtain ⟨i, j, lt, first, second, -⟩ := twice
  exact transGen_of_key? lt first second

/-- A walk has left the first keys of a chain behind, which are all different. -/
structure Along (next : Std.HashMap κ κ) (start : κ) (walk : Walk κ) : Prop where
  current : key? next start walk.visited.length = some walk.current
  visited : walk.visited.reverse.map some = (List.range walk.visited.length).map (key? next start)
  distinct : walk.visited.Nodup

namespace Along

variable {walk after : Walk κ}

theorem turn (along : Along next start walk) (turn : Turn next walk after) :
    Along next start after := by
  obtain ⟨step, isNew⟩ := turn
  obtain ⟨isCurrent, areVisited, distinct⟩ := along
  refine ⟨?_, ?_, List.nodup_cons.mpr ⟨isNew, distinct⟩⟩
  · rw [List.length_cons, key?, isCurrent]
    exact step
  · rw [List.reverse_cons, List.map_append, areVisited, List.length_cons, List.range_succ,
      List.map_append]
    exact congrArg _ (congrArg (fun key => [key]) isCurrent.symm)

/-- Whatever turns a walk takes, it stays on its chain. -/
theorem of_start (walks : ReflTransGen (Turn next) ⟨[], start⟩ walk) : Along next start walk := by
  induction walks with
  | refl => exact ⟨rfl, rfl, List.nodup_nil⟩
  | tail _ turn induction => exact induction.turn turn

theorem ends_or_firstTwice (along : Along next start walk) (halted : Halted next walk) :
    Ends next start walk.current ∨ FirstTwice next start walk.current := by
  obtain ⟨isCurrent, areVisited, distinct⟩ := along
  refine (halted_iff.mp halted).imp (fun stops => ⟨reaches_of_key? isCurrent, stops⟩)
    fun member => ?_
  have again : some walk.current ∈ (List.range walk.visited.length).map (key? next start) := by
    rw [← areVisited]
    exact List.mem_map_of_mem (List.mem_reverse.mpr member)
  obtain ⟨i, inRange, first⟩ := List.mem_map.mp again
  have different : ((List.range walk.visited.length).map (key? next start)).Nodup := by
    rw [← areVisited]
    exact (List.nodup_reverse.mpr distinct).map fun _ _ => Option.some.inj
  refine ⟨i, _, List.mem_range.mp inRange, first, isCurrent, fun a b lt below same => ?_⟩
  have inside : a < walk.visited.length := by omega
  have equal := List.inj_on_of_nodup_map different (List.mem_range.mpr inside)
    (List.mem_range.mpr below) same
  omega

end Along

theorem exists_walk (next : Std.HashMap κ κ) (start : κ) : ∃ visited,
    ReflTransGen (Turn next) ⟨[], start⟩ ⟨visited, Chain.last next start⟩ ∧
      Halted next ⟨visited, Chain.last next start⟩ := by
  refine exists_halted ?_
  have bound := List.length_filter_le (· ∉ ([] : List κ)) next.keys
  rw [Std.HashMap.length_keys] at bound
  exact Nat.lt_succ_of_le bound

theorem ends_or_firstTwice_last (next : Std.HashMap κ κ) (start : κ) :
    Ends next start (Chain.last next start) ∨ FirstTwice next start (Chain.last next start) := by
  obtain ⟨visited, walks, halted⟩ := exists_walk next start
  exact (Along.of_start walks).ends_or_firstTwice halted

theorem Ends.last_eq (ends : Ends next start last) : Chain.last next start = last := by
  rcases ends_or_firstTwice_last next start with alsoEnds | twice
  · exact alsoEnds.unique ends
  · exact absurd twice.transGen (ends.of_reaches twice.reaches).not_transGen

theorem ends_last (acyclic : Acyclic next) (start : κ) : Ends next start (Chain.last next start) :=
  (ends_or_firstTwice_last next start).resolve_right fun twice => acyclic _ twice.transGen

/-- Walks do not go on for ever, and the one from a start arrives at its last key. This is the end
of the chain, or the first key that the chain visits twice, and so on a circle, if the chain has no
end. Without circles the last key is its own last key and that of all keys on the way to it. -/
theorem arrives (next : Std.HashMap κ κ) (start : κ) :
    (WellFounded fun after before => Turn next before after) ∧
    (∃ visited, ReflTransGen (Turn next) ⟨[], start⟩ ⟨visited, Chain.last next start⟩ ∧
      Halted next ⟨visited, Chain.last next start⟩) ∧
    (∀ stop, Ends next start stop → Chain.last next start = stop) ∧
    ((¬∃ stop, Ends next start stop) → FirstTwice next start (Chain.last next start) ∧
      TransGen (Step next) (Chain.last next start) (Chain.last next start)) ∧
    (Acyclic next → Chain.last next (Chain.last next start) = Chain.last next start ∧
      ∀ member, ReflTransGen (Step next) start member →
      Chain.last next member = Chain.last next start) := by
  refine ⟨wellFounded_turn next, exists_walk next start, fun stop => Ends.last_eq,
    fun endless => ?_, fun acyclic => ?_⟩
  · have twice := (ends_or_firstTwice_last next start).resolve_left fun ends => endless ⟨_, ends⟩
    exact ⟨twice, twice.transGen⟩
  · have ends := ends_last acyclic start
    exact ⟨last_eq_self ends.stops, fun member reaches => (ends.of_reaches reaches).last_eq⟩

/-- The chain 1, 2, 3, 2, 3, … has no end and visits 2 twice first. -/
theorem exists_arrives :
    ∃ next : Std.HashMap Nat Nat, (¬∃ stop, Ends next 1 stop) ∧ Chain.last next 1 = 2 ∧
      FirstTwice next 1 2 ∧ TransGen (Step next) 2 2 := by
  let next : Std.HashMap Nat Nat :=
    ((Std.HashMap.emptyWithCapacity.insert 1 2).insert 2 3).insert 3 2
  have one : next[1]? = some 2 := by simp [next, Std.HashMap.getElem_insert]
  have two : next[2]? = some 3 := by simp [next, Std.HashMap.getElem_insert]
  have three : next[3]? = some 2 := by simp [next]
  have size : next.size = 3 := by simp [next, Std.HashMap.size_insert]
  have isLast : Chain.last next 1 = 2 := by
    rw [Chain.last, size]
    simp [follow, one, two, three]
  have endless : ¬∃ stop, Ends next 1 stop := by
    rintro ⟨stop, ends⟩
    exact (ends.of_reaches (.single one)).not_transGen (.tail (.single two) three)
  obtain ⟨-, -, -, circles, -⟩ := arrives next 1
  obtain ⟨twice, circle⟩ := circles endless
  rw [isLast] at twice circle
  exact ⟨next, endless, isLast, twice, circle⟩

end Unravel.Chain

/-! ### The links between aliases -/

namespace Unravel

namespace Alias

variable {p : Program} {b target : BindingId} {declarator init : NodeId} {name : String}

/-- A binding copies what a name means when the variable is declared: it is never written, and the
name is all that it is initialized with. -/
structure Copies (p : Program) (b : BindingId) (declarator init : NodeId)
    (name : String) : Prop where
  constant : p.isConstantVariable b = true
  initialized : p.initialized? b = some (declarator, init)
  spelled : (p.node init).identifier? = some name

structure CopiesBinding (p : Program) (b target : BindingId) : Prop where
  copies :
    ∃ declarator init name, Copies p b declarator init name ∧ p.bindingOf? init = some target ∧
      (p.declaratorOf? target).all (fun (other, _) => p.tree.precedes other declarator) = true
  different : target ≠ b

def CopiesGlobal (p : Program) (b : BindingId) (name : String) : Prop :=
  ∃ declarator init, Copies p b declarator init name ∧ p.bindingOf? init = none

namespace Copies

variable {other otherInit : NodeId} {otherName : String}

theorem unique (first : Copies p b declarator init name)
    (second : Copies p b other otherInit otherName) :
    declarator = other ∧ init = otherInit ∧ name = otherName := by
  have same := first.initialized.symm.trans second.initialized
  rw [Option.some.injEq, Prod.mk.injEq] at same
  obtain ⟨rfl, rfl⟩ := same
  exact ⟨rfl, rfl, Option.some.inj (first.spelled.symm.trans second.spelled)⟩

theorem declaratorOf? (copies : Copies p b declarator init name) :
    p.declaratorOf? b = some (declarator, some init) :=
  Program.declaratorOf?_of_initialized? copies.initialized

end Copies

/-! ### What the links of a program are -/

theorem CopiesBinding.unique {other : BindingId} (first : CopiesBinding p b target)
    (second : CopiesBinding p b other) : target = other := by
  obtain ⟨declarator, init, name, copies, belongs, -⟩ := first.copies
  obtain ⟨_, otherInit, _, otherCopies, otherBelongs, -⟩ := second.copies
  obtain ⟨-, rfl, -⟩ := copies.unique otherCopies
  exact Option.some.inj (belongs.symm.trans otherBelongs)

theorem CopiesGlobal.unique {other : String} (first : CopiesGlobal p b name)
    (second : CopiesGlobal p b other) :
    name = other := by
  obtain ⟨declarator, init, copies, -⟩ := first
  obtain ⟨_, _, otherCopies, -⟩ := second
  exact (copies.unique otherCopies).2.2

theorem CopiesBinding.not_copiesGlobal (copiesBinding : CopiesBinding p b target) :
    ¬CopiesGlobal p b name := by
  rintro ⟨declarator, init, copies, unbound⟩
  obtain ⟨_, otherInit, _, otherCopies, belongs, -⟩ := copiesBinding.copies
  obtain ⟨-, rfl, -⟩ := copies.unique otherCopies
  rw [unbound] at belongs
  cases belongs

namespace Links

variable {links : Links} {done : List BindingId}

/-- The links of some bindings. -/
structure Records (p : Program) (done : List BindingId) (links : Links) : Prop where
  next : ∀ b target, links.next[b]? = some target ↔ b ∈ done ∧ CopiesBinding p b target
  globals : ∀ b name, links.globals[b]? = some name ↔ b ∈ done ∧ CopiesGlobal p b name

theorem add_cases (p : Program) (links : Links) (b : BindingId) :
    (links.add p b = links ∧ (∀ target, ¬CopiesBinding p b target) ∧
      ∀ name, ¬CopiesGlobal p b name) ∨
      (∃ target, CopiesBinding p b target ∧
        links.add p b = { links with next := links.next.insert b target }) ∨
      ∃ name, CopiesGlobal p b name ∧
        links.add p b = { links with globals := links.globals.insert b name } := by
  -- Without a declaration that copies, there is nothing to be copied.
  have nothing (missing : ∀ declarator init name, ¬Copies p b declarator init name) :
      (∀ target, ¬CopiesBinding p b target) ∧ ∀ name, ¬CopiesGlobal p b name := by
    refine ⟨fun target copiesBinding => ?_,
      fun name ⟨declarator, init, copies, _⟩ => missing _ _ _ copies⟩
    obtain ⟨declarator, init, name, copies, -⟩ := copiesBinding.copies
    exact missing _ _ _ copies
  rw [Links.add]
  split
  · rename_i notAlias
    refine .inl ⟨rfl, nothing fun declarator init name copies => ?_⟩
    rw [if_pos copies.constant, copies.initialized] at notAlias
    cases notAlias
  · rename_i declarator init isAlias
    obtain ⟨constant, initialized⟩ := Option.ite_none_right_eq_some.mp isAlias
    split
    · rename_i name spelled unbound
      exact .inr (.inr ⟨name, ⟨declarator, init, ⟨constant, initialized, spelled⟩, unbound⟩, rfl⟩)
    · rename_i name target spelled belongs
      have copies : Copies p b declarator init name := ⟨constant, initialized, spelled⟩
      dsimp only
      split
      · rename_i isLink
        rw [Bool.and_eq_true, decide_eq_true_eq] at isLink
        exact .inr (.inl ⟨target, ⟨⟨declarator, init, name, copies, belongs, isLink.2⟩, isLink.1⟩,
          rfl⟩)
      · rename_i noLink
        refine .inl ⟨rfl, fun other copiesBinding => noLink ?_,
          fun other ⟨_, otherInit, otherCopies, unbound⟩ => ?_⟩
        · obtain ⟨_, otherInit, _, otherCopies, otherBelongs, ordered⟩ := copiesBinding.copies
          obtain ⟨rfl, rfl, -⟩ := copies.unique otherCopies
          rw [belongs, Option.some.injEq] at otherBelongs
          subst otherBelongs
          simp [copiesBinding.different, ordered]
        · obtain ⟨-, rfl, -⟩ := copies.unique otherCopies
          rw [belongs] at unbound
          cases unbound
    · rename_i unspelled
      refine .inl ⟨rfl, nothing fun _ _ name copies => ?_⟩
      have same := initialized.symm.trans copies.initialized
      rw [Option.some.injEq, Prod.mk.injEq] at same
      rw [same.2, copies.spelled] at unspelled
      cases unspelled

theorem getElem?_insert_iff {V : Type} {m : Std.HashMap BindingId V}
    {P : BindingId → V → Prop} {v : V}
    (before : ∀ key value, m[key]? = some value ↔ key ∈ done ∧ P key value) (inserted : P b v)
    (unique : ∀ other, P b other → v = other) (key : BindingId) (value : V) :
    (m.insert b v)[key]? = some value ↔ key ∈ done ++ [b] ∧ P key value := by
  rw [Std.HashMap.getElem?_insert, List.mem_append, List.mem_singleton]
  by_cases isKey : key = b
  · subst isKey
    simp only [beq_self_eq_true, if_true, Option.some.injEq, or_true, true_and]
    exact ⟨fun same => same ▸ inserted, unique value⟩
  · rw [if_neg (by simpa using Ne.symm isKey), before, or_iff_left isKey]

theorem getElem?_iff_of_absent {V : Type} {m : Std.HashMap BindingId V} {P : BindingId → V → Prop}
    (before : ∀ key value, m[key]? = some value ↔ key ∈ done ∧ P key value)
    (absent : ∀ other, ¬P b other) (key : BindingId) (value : V) :
    m[key]? = some value ↔ key ∈ done ++ [b] ∧ P key value := by
  rw [before, List.mem_append, List.mem_singleton, or_and_right, or_iff_left]
  rintro ⟨rfl, holds⟩
  exact absent value holds

theorem Records.add (records : Records p done links) (b : BindingId) :
    Records p (done ++ [b]) (links.add p b) := by
  rcases add_cases p links b with ⟨same, noBinding, noGlobal⟩ | ⟨target, copies, same⟩ |
    ⟨name, copies, same⟩
  · rw [same]
    exact ⟨getElem?_iff_of_absent records.next noBinding,
      getElem?_iff_of_absent records.globals noGlobal⟩
  · rw [same]
    exact ⟨getElem?_insert_iff records.next copies fun _ => copies.unique,
      getElem?_iff_of_absent records.globals fun _ => copies.not_copiesGlobal⟩
  · rw [same]
    exact ⟨getElem?_iff_of_absent records.next fun _ other => other.not_copiesGlobal copies,
      getElem?_insert_iff records.globals copies fun _ => copies.unique⟩

theorem Records.foldl (records : Records p done links) (ids : List BindingId) :
    Records p (done ++ ids) (ids.foldl (Links.add p) links) := by
  induction ids generalizing done links with
  | nil => rwa [List.append_nil]
  | cons b ids induction =>
    rw [List.append_cons]
    exact induction (records.add b)

theorem records_ofProgram (p : Program) : Records p p.scopes.liveIds (Links.ofProgram p) := by
  have none : Records p [] ⟨∅, ∅⟩ := ⟨by simp, by simp⟩
  exact none.foldl _

/-! ### Links lead backwards -/

theorem precedes_of_transGen (linked : p.tree.Linked) {first last : BindingId}
    (chain : Relation.TransGen (Chain.Step (Links.ofProgram p).next) first last) {other : NodeId}
    {value : Option NodeId} (declared : p.declaratorOf? last = some (other, value)) :
    ∃ declarator init, p.declaratorOf? first = some (declarator, some init) ∧
      p.tree.precedes other declarator = true := by
  have ofStep {b target : BindingId} (step : Chain.Step (Links.ofProgram p).next b target)
      {other : NodeId} {value : Option NodeId}
      (declared : p.declaratorOf? target = some (other, value)) :
      ∃ declarator init, p.declaratorOf? b = some (declarator, some init) ∧
        p.tree.precedes other declarator = true := by
    obtain ⟨declarator, init, name, copies, -, ordered⟩ :=
      (((records_ofProgram p).next b target).mp step).2.copies
    rw [declared, Option.all_some] at ordered
    exact ⟨declarator, init, copies.declaratorOf?, ordered⟩
  induction chain using Relation.TransGen.head_induction_on with
  | single step => exact ofStep step declared
  | head step _ induction =>
    obtain ⟨between, init, isBetween, after⟩ := induction
    obtain ⟨declarator, value, isFirst, before⟩ := ofStep step isBetween
    exact ⟨declarator, value, isFirst, linked.precedes_trans after before⟩

theorem acyclic (linked : p.tree.Linked) : Chain.Acyclic (Links.ofProgram p).next := by
  intro b circle
  obtain ⟨target, step, -⟩ := Relation.TransGen.head'_iff.mp circle
  obtain ⟨declarator, init, name, copies, -⟩ :=
    (((records_ofProgram p).next b target).mp step).2.copies
  obtain ⟨other, value, declared, before⟩ := precedes_of_transGen linked circle copies.declaratorOf?
  rw [copies.declaratorOf?, Option.some.injEq, Prod.mk.injEq] at declared
  rw [declared.1, Tree.not_precedes_self] at before
  cases before

end Links

end Alias

end Unravel
