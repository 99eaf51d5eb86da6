import Mathlib.Logic.Relation
import Unravel.Proofs.Program.Meaning
import Unravel.Proofs.Simplify.Through
import Unravel.Simplify.Proxy

/-!
The operators that keys stand for. A table of operators says for which operator a key has been
registered if that was always the same one (`OperatorTable.Summarizes`), so that neither the order
of registrations nor what is registered after two different ones matters. Where proxies are resolved
in one program after the other, all definitions of a program are registered before the first call of
it is rewritten, so that a call becomes an operator only if all definitions of its key agree that
have been found until then (`Proxy.unanimous_throughout`).
-/

namespace Unravel

/-! ### Registrations -/

abbrev Registration : Type := String × OperatorProxy

/-- A key has been registered, and always for the same operator. -/
structure Unanimous (known : List Registration) (key : String) (proxy : OperatorProxy) : Prop where
  registered : (key, proxy) ∈ known
  alone : ∀ other, (key, other) ∈ known → other = proxy

namespace Unanimous

variable {known more : List Registration} {key : String} {proxy first second : OperatorProxy}

theorem congr (same : ∀ other, (key, other) ∈ known ↔ (key, other) ∈ more) :
    Unanimous known key proxy ↔ Unanimous more key proxy := by
  constructor
  · exact fun ⟨registered, alone⟩ =>
      ⟨(same _).mp registered, fun other member => alone other ((same _).mpr member)⟩
  · exact fun ⟨registered, alone⟩ =>
      ⟨(same _).mpr registered, fun other member => alone other ((same _).mp member)⟩

theorem not_of_ne (isFirst : (key, first) ∈ known) (isSecond : (key, second) ∈ known)
    (differ : first ≠ second) :
    ¬Unanimous (known ++ more) key proxy := by
  intro unanimous
  have isFirst := unanimous.alone first (List.mem_append_left _ isFirst)
  have isSecond := unanimous.alone second (List.mem_append_left _ isSecond)
  exact differ (isFirst.trans isSecond.symm)

theorem append_singleton {registered : OperatorProxy} :
    Unanimous (known ++ [(key, registered)]) key proxy ↔
      registered = proxy ∧ ((∀ other, (key, other) ∉ known) ∨ Unanimous known key proxy) := by
  constructor
  · rintro ⟨member, alone⟩
    obtain rfl := alone registered (by simp)
    refine ⟨rfl, or_iff_not_imp_left.mpr fun seen => ?_⟩
    push Not at seen
    obtain ⟨other, isOther⟩ := seen
    obtain rfl := alone other (List.mem_append_left _ isOther)
    exact ⟨isOther, fun other isOther => alone other (List.mem_append_left _ isOther)⟩
  · rintro ⟨rfl, unseen | ⟨member, alone⟩⟩
    · exact ⟨by simp, fun other member => by simpa [unseen] using member⟩
    · refine ⟨by simp, fun other member => ?_⟩
      rcases List.mem_append.mp member with isKnown | isNew
      · exact alone other isKnown
      · simpa using isNew

/-- A registration of another key does not matter. -/
theorem append_singleton_of_ne {name : String} {registered : OperatorProxy} (differ : key ≠ name) :
    Unanimous (known ++ [(name, registered)]) key proxy ↔ Unanimous known key proxy :=
  congr fun other => by simp [differ]

end Unanimous

/-! ### Tables -/

namespace OperatorTable

variable {table other : OperatorTable} {known reordered : List Registration} {key : String}
  {proxy : OperatorProxy}

def registerAll (table : OperatorTable) (registrations : List Registration) : OperatorTable :=
  registrations.foldl (fun table (key, proxy) => table.register key proxy) table

theorem registerAll_append (table : OperatorTable) (first second : List Registration) :
    table.registerAll (first ++ second) = (table.registerAll first).registerAll second :=
  List.foldl_append

structure Summarizes (table : OperatorTable) (known : List Registration) : Prop where
  nodup : (table.entries.map Prod.fst).Nodup
  unseen : ∀ key, table.entries.lookup key = none ↔ ∀ proxy, (key, proxy) ∉ known
  agreed : ∀ key proxy, table.entries.lookup key = some (some proxy) ↔ Unanimous known key proxy

theorem map_insertEntry (key : String) (proxy : OperatorProxy)
    (entries : List (String × Option OperatorProxy)) :
    (insertEntry key proxy entries).map Prod.fst =
      if key ∈ entries.map Prod.fst then entries.map Prod.fst
        else entries.map Prod.fst ++ [key] := by
  induction entries with
  | nil => rfl
  | cons head rest induction =>
    obtain ⟨name, entry⟩ := head
    by_cases same : name = key
    · simp [insertEntry, same]
    · rw [insertEntry, if_neg same, List.map_cons, induction]
      split <;> simp_all [eq_comm]

theorem mem_iff_lookup {entries : List (String × Option OperatorProxy)}
    (nodup : (entries.map Prod.fst).Nodup) (key : String) (entry : Option OperatorProxy) :
    (key, entry) ∈ entries ↔ entries.lookup key = some entry := by
  induction entries with
  | nil => simp
  | cons head rest induction =>
    obtain ⟨name, first⟩ := head
    rw [List.map_cons, List.nodup_cons] at nodup
    by_cases same : key = name
    · subst same
      have notLater : (key, entry) ∉ rest :=
        fun member => nodup.1 (List.mem_map.mpr ⟨_, member, rfl⟩)
      simp [notLater, eq_comm]
    · rw [List.lookup_cons, beq_false_of_ne same, List.mem_cons, induction nodup.2]
      simp [same]

namespace Summarizes

theorem empty : Summarizes empty [] where
  nodup := List.nodup_nil
  unseen key := by simp [OperatorTable.empty]
  agreed key proxy := ⟨nofun, fun unanimous => by cases unanimous.registered⟩

theorem register (summarizes : Summarizes table known) (key : String) (proxy : OperatorProxy) :
    Summarizes (table.register key proxy) (known ++ [(key, proxy)]) where
  nodup := by
    rw [OperatorTable.register, map_insertEntry]
    split
    · exact summarizes.nodup
    · rename_i isNew
      exact summarizes.nodup.append (List.nodup_singleton key) (by simpa using isNew)
  unseen name := by
    rw [OperatorTable.register, lookup_insertEntry]
    split <;> rename_i same
    · subst same
      exact iff_of_false nofun fun unseen => unseen proxy (by simp)
    · simp [summarizes.unseen, same]
  agreed name other := by
    rw [OperatorTable.register, lookup_insertEntry]
    split <;> rename_i same
    · subst same
      rw [Unanimous.append_singleton, ← summarizes.unseen, ← summarizes.agreed]
      cases table.entries.lookup name with
      | none => simp
      | some entry =>
        by_cases agrees : entry = some proxy
        · simp [agrees]
        · dsimp only
          rw [if_neg agrees]
          refine iff_of_false nofun fun ⟨isOther, stands⟩ => agrees ?_
          simpa [isOther] using stands
    · rw [Unanimous.append_singleton_of_ne same, summarizes.agreed]

theorem registerAll (summarizes : Summarizes table known) (registrations : List Registration) :
    Summarizes (table.registerAll registrations) (known ++ registrations) := by
  induction registrations generalizing table known with
  | nil => rwa [List.append_nil]
  | cons head rest induction =>
    rw [List.append_cons]
    exact induction (summarizes.register head.1 head.2)

section Facts

variable (summarizes : Summarizes table known)

include summarizes

theorem proxy?_iff (key : String) (proxy : OperatorProxy) :
    table.proxy? key = some proxy ↔ Unanimous known key proxy := by
  rw [proxy?, Option.join_eq_some_iff, summarizes.agreed]

theorem proxy?_eq_none (disagree : ∀ proxy, ¬Unanimous known key proxy) : table.proxy? key = none :=
  Option.eq_none_iff_forall_ne_some.mpr fun proxy stands =>
    disagree proxy ((summarizes.proxy?_iff key proxy).mp stands)

theorem exists_keys : ∃ keys : List String, keys.Nodup ∧ keys.length = table.size ∧
    ∀ key, key ∈ keys ↔ ∃ proxy, Unanimous known key proxy := by
  refine ⟨(table.entries.filter (·.2.isSome)).map Prod.fst, ?_, ?_, fun key => ?_⟩
  · exact summarizes.nodup.sublist (List.filter_sublist.map _)
  · rw [List.length_map, ← List.countP_eq_length_filter]
    rfl
  · simp only [← summarizes.agreed, ← mem_iff_lookup summarizes.nodup, List.mem_map,
      List.mem_filter]
    constructor
    · rintro ⟨⟨name, entry⟩, ⟨member, isSome⟩, rfl⟩
      obtain ⟨proxy, rfl⟩ := Option.isSome_iff_exists.mp isSome
      exact ⟨proxy, member⟩
    · rintro ⟨proxy, member⟩
      exact ⟨(key, some proxy), ⟨member, rfl⟩, rfl⟩

/-- The order of registrations does not matter. -/
theorem eq_of_perm (reorders : Summarizes other reordered) (perm : reordered.Perm known) :
    other.size = table.size ∧ ∀ key, other.proxy? key = table.proxy? key := by
  have same (key : String) (proxy : OperatorProxy) : Unanimous reordered key proxy ↔
      Unanimous known key proxy :=
    Unanimous.congr fun _ => perm.mem_iff
  obtain ⟨keys, nodup, isSize, mem_iff⟩ := summarizes.exists_keys
  obtain ⟨others, othersNodup, isOtherSize, mem_others_iff⟩ := reorders.exists_keys
  refine ⟨?_, fun key => Option.ext fun proxy => ?_⟩
  · rw [← isSize, ← isOtherSize]
    refine ((List.perm_ext_iff_of_nodup othersNodup nodup).mpr fun key => ?_).length_eq
    simp only [mem_iff, mem_others_iff, same]
  · rw [reorders.proxy?_iff, summarizes.proxy?_iff, same]

end Facts

end Summarizes

end OperatorTable

/-! ### Changes -/

namespace SimplifyM

variable {α β : Type} {w v : Workspace} {action : SimplifyM α} {R E : Workspace → Workspace → Prop}
  {post : α → Workspace → Prop} {result : α} {e : Error}

theorem bind_of_error (next : α → SimplifyM β) (ran : action w = .error e v) :
    (action >>= next) w = .error e v := by
  change EStateM.bind action next w = _
  rw [EStateM.bind, ran]

theorem Through.of_eq_ok (ran : action w = .ok result v) (leads : R w v) (holds : post result v) :
    Through R E w action post := by
  rw [Through, ran]
  exact ⟨leads, holds⟩

theorem Through.of_eq_error (ran : action w = .error e v) (fails : E w v) :
    Through R E w action post := by
  rw [Through, ran]
  exact fails

/-- The workspace that an action leaves, whether it succeeds or fails. -/
def outcome (action : SimplifyM α) (w : Workspace) : Workspace :=
  match action w with
  | .ok _ v => v
  | .error _ v => v

theorem Through.outcome (through : Through R R w action post) : R w (outcome action w) := by
  rw [SimplifyM.outcome]
  cases ran : action w with
  | ok result v => exact (through.of_ok ran).1
  | error e v => exact through.of_error ran

theorem forall_of_anyChange {ι : Type} {step : ι → SimplifyM Bool} {items : List ι}
    (rests : ∀ item ∈ items, ∀ w v, step item w = .ok false v → v = w)
    (ran : anyChange items step w = .ok false v) :
    v = w ∧ ∀ item ∈ items, step item w = .ok false w := by
  induction items generalizing w with
  | nil =>
    obtain ⟨-, rfl⟩ := EStateM.Result.ok.inj ran
    exact ⟨rfl, nofun⟩
  | cons head rest induction =>
    rw [anyChange_cons] at ran
    obtain ⟨first, mid, others, stepped, further, no⟩ := exists_of_or ran
    obtain ⟨rfl, rfl⟩ := Bool.or_eq_false_iff.mp no.symm
    rw [List.forall_mem_cons] at rests ⊢
    obtain rfl := rests.1 w mid stepped
    obtain ⟨same, each⟩ := induction rests.2 further
    exact ⟨same, stepped, each⟩

end SimplifyM

namespace Proxy

open SimplifyM

variable {p : Program} {c d : Context} {w v : Workspace}
  {stands other : String → OperatorProxy → Prop} {call callee first second : NodeId} {key : String}
  {proxy : OperatorProxy} {known more : List Registration}

/-- What the definitions of a program register, in their order. -/
def registrations (p : Program) : List Registration :=
  (p.nodes.filterMap (definition? p)).map fun d => (d.key, d.proxy)

/-- A call of two arguments goes through a key of something that can hold proxies. -/
structure GoesThrough (p : Program) (call callee first second : NodeId) (key : String) : Prop where
  shape : p.node call = .call callee [first, second]
  exists_base :
    ∃ base name computed, p.node callee = .member base name computed ∧ isBase (p.node base) = true
  isKey : p.tree.memberName? callee = some key

theorem call?_eq_some_iff : call? p c call = some (proxy, first, second) ↔
    ∃ callee key, GoesThrough p call callee first second key ∧
      c.operators.proxy? key = some proxy := by
  constructor
  · intro found
    unfold call? at found
    split at found
    · rename_i callee _ _ shape
      split at found
      · rename_i base _ _ memberShape
        simp only [bind, Option.ite_none_right_eq_some, Option.bind_eq_some_iff, pure,
          Option.some.injEq] at found
        obtain ⟨canHold, key, isKey, _, stands, same⟩ := found
        cases same
        exact ⟨callee, key, ⟨shape, ⟨_, _, _, memberShape, canHold⟩, isKey⟩, stands⟩
      · cases found
    · cases found
  · rintro ⟨callee, key, ⟨shape, ⟨base, name, computed, memberShape, canHold⟩, isKey⟩, stands⟩
    simp [call?, shape, memberShape, canHold, isKey, stands]

/-- One change of a program in which proxies are resolved. It is known for which operators keys
stand and in which program the definitions were found. -/
inductive Change (p : Program) (stands : String → OperatorProxy → Prop) (w : Workspace) :
    Workspace → Prop where
  /-- A call becomes the operator of its key. -/
  | rewritten {call callee first second operation placed : NodeId} {key : String}
      {proxy : OperatorProxy} {grown after : Program} {e : Event} :
      w.program.isAttached call = true →
      GoesThrough w.program call callee first second key → stands key proxy →
      w.program.allocate (applied proxy first second) = (operation, grown) →
      grown.replace call operation = .ok (placed, after) →
      Change p stands w ⟨after, { w.context with journal := w.context.journal.record e }⟩
  /-- The operator has been applied and finds no place. -/
  | unplaced {call callee first second operation : NodeId} {key : String} {proxy : OperatorProxy}
      {grown : Program} {error : Error} : GoesThrough w.program call callee first second key →
        stands key proxy →
      w.program.allocate (applied proxy first second) = (operation, grown) →
      grown.replace call operation = .error error → Change p stands w ⟨grown, w.context⟩
  /-- A definition whose key is not read any more goes away. -/
  | removed {d : Definition} {after : Program} {e : Event} : d ∈ p.nodes.filterMap (definition? p) →
      stands d.key d.proxy → isRead w.program d.key = false → w.program.remove d.node = .ok after →
      Change p stands w ⟨after, { w.context with journal := w.context.journal.record e }⟩

/-- Several changes, one after the other. -/
def Changes (p : Program) (stands : String → OperatorProxy → Prop) : Workspace → Workspace → Prop :=
  Relation.ReflTransGen (Change p stands)

theorem Change.mono (change : Change p stands w v)
    (weaker : ∀ key proxy, stands key proxy → other key proxy) :
    Change p other w v := by
  cases change with
  | rewritten attached through isKnown built placed =>
    exact .rewritten attached through (weaker _ _ isKnown) built placed
  | unplaced through isKnown built failed =>
    exact .unplaced through (weaker _ _ isKnown) built failed
  | removed isDefinition isKnown notRead gone =>
    exact .removed isDefinition (weaker _ _ isKnown) notRead gone

theorem Change.operators (change : Change p stands w v) :
    v.context.operators = w.context.operators := by
  cases change <;> rfl

namespace Changes

theorem mono (changes : Changes p stands w v)
    (weaker : ∀ key proxy, stands key proxy → other key proxy) :
    Changes p other w v :=
  Relation.ReflTransGen.mono (fun _ _ change => change.mono weaker) _ _ changes

theorem operators (changes : Changes p stands w v) : v.context.operators = w.context.operators := by
  induction changes with
  | refl => rfl
  | tail _ change induction => exact change.operators.trans induction

theorem route : Route (Changes p stands) (Changes p stands) where
  stay _ := .refl
  trans first second := first.trans second
  fails first second := first.trans second

end Changes

def StandsFor (c : Context) (key : String) (proxy : OperatorProxy) :
    Prop := c.operators.proxy? key = some proxy

theorem through_callStep (same : w.context.operators = c.operators)
    (attached : w.program.isAttached call = true) :
    Through (Changes p (StandsFor c)) (Changes p (StandsFor c)) w (callStep call) always := by
  refine .program (.context ?_)
  split
  · exact .pure .refl trivial
  · rename_i proxy first second found
    obtain ⟨callee, key, through, stands⟩ := call?_eq_some_iff.mp found
    rw [same] at stands
    cases built : w.program.allocate (applied proxy first second) with
    | mk operation grown =>
    have builds : build (applied proxy first second) w = .ok operation ⟨grown, w.context⟩ := by
      rw [build, edit, built]
    cases placed : grown.replace call operation with
    | ok result =>
      obtain ⟨place, after⟩ := result
      have replaced : replace call operation ⟨grown, w.context⟩ = .ok place ⟨after, w.context⟩ := by
        rw [replace, edit, placed]
      have recorded : replaceAndRecord .operatorInlined "" call operation ⟨grown, w.context⟩ =
          .ok () _ :=
        bind_of_ok _ replaced
      refine .of_eq_ok ((bind_of_ok _ builds).trans (bind_of_ok _ recorded)) (.single ?_) trivial
      exact .rewritten attached through stands built placed
    | error e =>
      have failed : replace call operation ⟨grown, w.context⟩ = .error e ⟨grown, w.context⟩ := by
        rw [replace, edit, placed]
      have unrecorded : replaceAndRecord .operatorInlined "" call operation ⟨grown, w.context⟩ =
          .error e ⟨grown, w.context⟩ := by
        rw [replaceAndRecord, snippet_bind, bind_of_error _ failed]
      refine .of_eq_error ((bind_of_ok _ builds).trans (bind_of_error _ unrecorded)) (.single ?_)
      exact .unplaced through stands built placed

theorem through_removeStep {d : Definition} (same : w.context.operators = c.operators)
    (isDefinition : d ∈ p.nodes.filterMap (definition? p)) :
    Through (Changes p (StandsFor c)) (Changes p (StandsFor c)) w (removeStep d) always := by
  refine .program (.context ?_)
  split
  · rename_i isSpent
    simp only [Proxy.isSpent, Bool.and_eq_true, decide_eq_true_eq, Bool.not_eq_true',
      same] at isSpent
    obtain ⟨⟨⟨-, stands⟩, notRead⟩, -⟩ := isSpent
    refine .snippet fun text => ?_
    cases gone : w.program.remove d.node with
    | ok after =>
      refine .of_eq_ok (bind_of_ok _ (remove_of_ok gone)) (.single ?_) trivial
      exact .removed isDefinition stands notRead gone
    | error e =>
      have failed : remove d.node w = .error e w := by
        rw [remove, edit, gone]
        rfl
      exact .of_eq_error (bind_of_error _ failed) .refl
  · exact .pure .refl trivial

/-- The context after the definitions of a program have been registered. -/
def registered (p : Program) (c : Context) : Context :=
  { c with operators := c.operators.registerAll (registrations p) }

/-- The part of a run that comes after the registrations. -/
def resolve (definitions : List Definition) : SimplifyM Bool := do
  let expanded ← SimplifyM.visit (fun p id => isCall (p.node id)) callStep
  let removed ← SimplifyM.anyChange definitions removeStep
  return expanded || removed

theorem run_eq (p : Program) (c : Context) :
    run ⟨p, c⟩ = resolve (p.nodes.filterMap (definition? p)) ⟨p, registered p c⟩ := by
  rw [registered, registrations, OperatorTable.registerAll, List.foldl_map]
  rfl

theorem through_resolve (p : Program) (c : Context) :
    Through (Changes p (StandsFor c)) (Changes p (StandsFor c)) ⟨p, c⟩
      (resolve (p.nodes.filterMap (definition? p))) always := by
  have route : Route (Changes p (StandsFor c)) (Changes p (StandsFor c)) := Changes.route
  refine .bindAlways route (.visit route .refl fun call v changes _ _ attached => ?_)
    fun expanded v changes => ?_
  · exact through_callStep changes.operators attached
  · refine .bindAlways route (.anyChange route .refl fun d isDefinition u further => ?_)
      fun _ _ _ => .pure .refl trivial
    exact through_removeStep (further.operators.trans changes.operators) isDefinition

theorem changes_outcome (p : Program) (c : Context) :
    Changes p (StandsFor (registered p c)) ⟨p, registered p c⟩ (outcome run ⟨p, c⟩) := by
  have changes := (through_resolve p (registered p c)).outcome
  rwa [outcome, ← run_eq] at changes

theorem operators_outcome (p : Program) (c : Context) :
    (outcome run ⟨p, c⟩).context.operators = c.operators.registerAll (registrations p) :=
  (changes_outcome p c).operators

theorem of_callStep_eq_false (ran : callStep call w = .ok false v) :
    v = w ∧ call? w.program w.context call = none := by
  rw [callStep, program_bind, context_bind] at ran
  cases found : call? w.program w.context call with
  | none =>
    rw [found] at ran
    exact ⟨(EStateM.Result.ok.inj ran).2.symm, rfl⟩
  | some result =>
    rw [found] at ran
    exact absurd ran (Affirms.bind (fun _ => .thenYes) w v)

theorem not_standsFor_of_no (ran : run ⟨p, c⟩ = .ok false v) (isNode : call ∈ p.nodes)
    (attached : p.isAttached call = true) (through : GoesThrough p call callee first second key) :
    ¬StandsFor (registered p c) key proxy := by
  intro stands
  rw [run_eq] at ran
  obtain ⟨expanded, mid, removed, visited, -, no⟩ := exists_of_or ran
  obtain ⟨rfl, rfl⟩ := Bool.or_eq_false_iff.mp no.symm
  rw [visit, nodesWhere_bind] at visited
  have stepped := (forall_of_anyChange (fun id _ w v stepped => ?_) visited).2 call
    (List.mem_filter.mpr ⟨isNode, ?_⟩)
  · rw [ifAttached, program_bind, if_pos attached] at stepped
    have found := call?_eq_some_iff.mpr ⟨callee, key, through, stands⟩
    rw [(of_callStep_eq_false stepped).2] at found
    cases found
  · rw [ifAttached, program_bind] at stepped
    split at stepped
    · exact (of_callStep_eq_false stepped).1
    · exact (EStateM.Result.ok.inj stepped).2.symm
  · rw [through.shape]
    rfl

/-! ### Histories -/

/-- What is registered between two contexts: directly, and by resolving the proxies of any programs,
whether this succeeds or fails. Nothing else touches the table. -/
inductive Learns (c : Context) : List Registration → Context → Prop where
  | nothing : Learns c [] c
  | registered {known : List Registration} {d : Context} (key : String) (proxy : OperatorProxy) :
      Learns c known d →
      Learns c (known ++ [(key, proxy)]) { d with operators := d.operators.register key proxy }
  | ran {known : List Registration} {d : Context} (p : Program) : Learns c known d →
      Learns c (known ++ registrations p) (outcome run ⟨p, d⟩).context
  | elsewhere {known : List Registration} {d e : Context} :
      Learns c known d → e.operators = d.operators →
      Learns c known e

namespace Learns

theorem operators (learns : Learns c known d) : d.operators = c.operators.registerAll known := by
  induction learns with
  | nothing => rfl
  | registered key proxy _ induction =>
    rw [OperatorTable.registerAll_append, ← induction]
    rfl
  | ran p _ induction => rw [OperatorTable.registerAll_append, ← induction, operators_outcome]
  | elsewhere _ same induction => exact same.trans induction

theorem adds (learns : Learns c more d) (summarizes : c.operators.Summarizes known) :
    d.operators.Summarizes (known ++ more) := by
  rw [learns.operators]
  exact summarizes.registerAll more

theorem summarizes {config : Config} (learns : Learns (.ofConfig config) known c) :
    c.operators.Summarizes known :=
  learns.adds .empty

end Learns

theorem standsFor_registered (summarizes : c.operators.Summarizes known) (p : Program)
    (key : String) (proxy : OperatorProxy) :
    StandsFor (registered p c) key proxy ↔ Unanimous (known ++ registrations p) key proxy :=
  (summarizes.registerAll (registrations p)).proxy?_iff key proxy

/-- A key stands for an operator if it has been registered and always for this one, in whatever
order. So a key that has been registered for two operators never again stands for one, and neither
are calls through it rewritten nor its definitions removed. Where proxies are resolved, calls go
over to the operator on which all definitions of their key agree that have been found in the program
and before, and a run that changes nothing has met no such call. -/
theorem unanimous_throughout {config : Config} (learns : Learns (.ofConfig config) known c) :
    (∀ key proxy, c.operators.proxy? key = some proxy ↔ Unanimous known key proxy) ∧
      (∃ keys : List String, keys.Nodup ∧ keys.length = c.operators.size ∧
        ∀ key, key ∈ keys ↔ ∃ proxy, Unanimous known key proxy) ∧
      (∀ otherConfig reordered d, Learns (.ofConfig otherConfig) reordered d →
      reordered.Perm known →
        d.operators.size = c.operators.size ∧
          ∀ key, d.operators.proxy? key = c.operators.proxy? key) ∧
      (∀ p, Changes p (Unanimous (known ++ registrations p)) ⟨p, registered p c⟩
        (outcome run ⟨p, c⟩) ∧
        ∀ v, run ⟨p, c⟩ = .ok false v → ∀ call ∈ p.nodes, p.isAttached call = true →
          ∀ callee first second key proxy, GoesThrough p call callee first second key →
            ¬Unanimous (known ++ registrations p) key proxy) ∧
      ∀ key one another, (key, one) ∈ known → (key, another) ∈ known → one ≠ another →
        ∀ more d, Learns c more d → d.operators.proxy? key = none ∧
          ∀ p, Changes p (fun other _ => other ≠ key) ⟨p, registered p d⟩ (outcome run ⟨p, d⟩) := by
  have summarizes := learns.summarizes
  refine ⟨summarizes.proxy?_iff, summarizes.exists_keys, fun _ _ d others perm => ?_,
    fun p => ⟨?_, ?_⟩, ?_⟩
  · exact summarizes.eq_of_perm others.summarizes perm
  · exact (changes_outcome p c).mono fun key proxy =>
      (standsFor_registered summarizes p key proxy).mp
  · intro v ran call isNode attached callee first second key proxy through agrees
    exact not_standsFor_of_no ran isNode attached through
      ((standsFor_registered summarizes p key proxy).mpr agrees)
  · intro key one another isOne isAnother differ more d later
    have summarizesLater := later.adds summarizes
    refine ⟨summarizesLater.proxy?_eq_none fun proxy => Unanimous.not_of_ne isOne isAnother differ,
      fun p => ?_⟩
    refine (changes_outcome p d).mono fun other proxy stands same => ?_
    subst same
    have agrees := (standsFor_registered summarizesLater p other proxy).mp stands
    rw [List.append_assoc] at agrees
    exact Unanimous.not_of_ne isOne isAnother differ agrees

/--
The tree of `t.k = function (a, b) { return a + b; }; t.k(true, false);`, or with another operator.
-/
def keyedOperator (operator : BinaryOp) : Tree :=
  ⟨#[⟨.identifier "t", some ⟨2⟩⟩, ⟨.identifier "k", some ⟨2⟩⟩, ⟨.member ⟨0⟩ ⟨1⟩ false, some ⟨11⟩⟩,
    ⟨.identifier "a", some ⟨10⟩⟩, ⟨.identifier "b", some ⟨10⟩⟩, ⟨.identifier "a", some ⟨7⟩⟩,
    ⟨.identifier "b", some ⟨7⟩⟩, ⟨.binary operator ⟨5⟩ ⟨6⟩, some ⟨8⟩⟩,
    ⟨.return_ (some ⟨7⟩), some ⟨9⟩⟩, ⟨.block [⟨8⟩], some ⟨10⟩⟩,
    ⟨.function ⟨.expression, none, [⟨3⟩, ⟨4⟩], ⟨9⟩, false, false⟩, some ⟨11⟩⟩,
    ⟨.assignment .assign ⟨2⟩ ⟨10⟩, some ⟨12⟩⟩, ⟨.expressionStatement ⟨11⟩, some ⟨20⟩⟩,
    ⟨.identifier "t", some ⟨15⟩⟩, ⟨.identifier "k", some ⟨15⟩⟩,
    ⟨.member ⟨13⟩ ⟨14⟩ false, some ⟨18⟩⟩, ⟨.literal (.boolean true), some ⟨18⟩⟩,
    ⟨.literal (.boolean false), some ⟨18⟩⟩, ⟨.call ⟨15⟩ [⟨16⟩, ⟨17⟩], some ⟨19⟩⟩,
    ⟨.expressionStatement ⟨18⟩, some ⟨20⟩⟩, ⟨.program [⟨12⟩, ⟨19⟩], none⟩]⟩

theorem lexicon_keyedOperator {operator : BinaryOp}
    (isOperator : operator = .add ∨ operator = .mul) :
    let l := (keyedOperator operator).lexicon ⟨20⟩
    l.meaning? ⟨3⟩ = some ⟨⟨10⟩, "a", .param, ⟨10⟩, ⟨3⟩⟩ ∧ l.meaning? ⟨5⟩ = l.meaning? ⟨3⟩ ∧
      l.meaning? ⟨4⟩ = some ⟨⟨10⟩, "b", .param, ⟨10⟩, ⟨4⟩⟩ ∧ l.meaning? ⟨6⟩ = l.meaning? ⟨4⟩ := by
  rcases isOperator with rfl | rfl <;> decide

theorem exists_registrations {operator : BinaryOp}
    (isOperator : operator = .add ∨ operator = .mul) :
    ∃ p, Program.ofTree (keyedOperator operator) ⟨20⟩ = .ok p ∧ p.tree = keyedOperator operator ∧
      p.root = ⟨20⟩ ∧
      registrations p = [("k", ⟨operator, false⟩)] := by
  have checks : (keyedOperator operator).checks = true := rfl
  obtain ⟨scopes, made, steady⟩ := Program.exists_steady (keyedOperator operator) ⟨20⟩
    (Tree.linked_of_checks checks) ⟨Nat.lt_succ_self 20, rfl⟩ (Tree.wellBound_of_bindsWell rfl) rfl
  have facts := lexicon_keyedOperator isOperator
  set p : Program := ⟨keyedOperator operator, ⟨20⟩, scopes, false⟩ with isProgram
  change let l := p.lexicon; _ at facts
  obtain ⟨atFirst, sameLeft, atSecond, sameRight⟩ := facts
  obtain ⟨a, isFirst, -⟩ := steady.sound.exists_of_meaning? atFirst
  obtain ⟨b, isSecond, -⟩ := steady.sound.exists_of_meaning? atSecond
  have isLeft : p.bindingOf? ⟨5⟩ = some a := by
    rw [steady.sound.bindingOf?_eq, sameLeft, ← steady.sound.bindingOf?_eq, isFirst]
  have isRight : p.bindingOf? ⟨6⟩ = some b := by
    rw [steady.sound.bindingOf?_eq, sameRight, ← steady.sound.bindingOf?_eq, isSecond]
  have isProxy : ofFunction? p ⟨10⟩ = some ⟨operator, false⟩ := by
    have same : ofFunction? p ⟨10⟩ = (do
        let bindingA ← p.bindingOf? ⟨3⟩
        let bindingB ← p.bindingOf? ⟨4⟩
        if p.bindingOf? ⟨5⟩ = some bindingA && p.bindingOf? ⟨6⟩ = some bindingB then
          some ⟨operator, false⟩
        else if p.bindingOf? ⟨5⟩ = some bindingB && p.bindingOf? ⟨6⟩ = some bindingA then
        some ⟨operator, true⟩
        else none) := rfl
    rw [same, isFirst, isSecond, isLeft, isRight]
    simp
  have isDefinition : definition? p ⟨12⟩ = some ⟨⟨12⟩, some ⟨2⟩, "k", ⟨operator, false⟩⟩ := by
    have same :
        definition? p ⟨12⟩ =
          (ofFunction? p ⟨10⟩).bind fun proxy => some ⟨⟨12⟩, some ⟨2⟩, "k", proxy⟩ := rfl
    rw [same, isProxy]
    rfl
  have nodes :
      p.nodes = ⟨20⟩ :: ⟨12⟩ :: [⟨11⟩, ⟨2⟩, ⟨0⟩, ⟨1⟩, ⟨10⟩, ⟨3⟩, ⟨4⟩, ⟨9⟩, ⟨8⟩, ⟨7⟩, ⟨5⟩, ⟨6⟩,
        ⟨19⟩, ⟨18⟩, ⟨15⟩,
        ⟨13⟩, ⟨14⟩, ⟨16⟩, ⟨17⟩] := rfl
  refine ⟨p, made, rfl, rfl, ?_⟩
  rw [registrations, nodes, List.filterMap_cons_none rfl, List.filterMap_cons_some isDefinition]
  rfl

/-- A program defines a proxy and another one a different proxy of the same key. After the first one
calls through the key are rewritten, and after both of them they never are again. -/
theorem exists_unanimous_throughout : ∃ p q c d, Program.ofTree (keyedOperator .add) ⟨20⟩ = .ok p ∧
    Program.ofTree (keyedOperator .mul) ⟨20⟩ = .ok q ∧
    Learns (.ofConfig default) [("k", ⟨.add, false⟩)] c ∧
    c.operators.proxy? "k" = some ⟨.add, false⟩ ∧
    (∀ v, run ⟨p, c⟩ ≠ .ok false v) ∧
    Learns (.ofConfig default) [("k", ⟨.add, false⟩), ("k", ⟨.mul, false⟩)] d ∧
    (outcome run ⟨p, d⟩).context.operators.proxy? "k" = none ∧
    Changes p (fun key _ => key ≠ "k") ⟨p, registered p d⟩ (outcome run ⟨p, d⟩) := by
  obtain ⟨⟨_, _, scopes, stale⟩, madeSum, rfl, rfl, sums⟩ := exists_registrations (.inl rfl)
  set p : Program := ⟨keyedOperator .add, ⟨20⟩, scopes, stale⟩
  obtain ⟨q, madeProduct, -, -, products⟩ := exists_registrations (.inr rfl)
  have learnsSum : Learns (.ofConfig default) [("k", ⟨.add, false⟩)] _ :=
    sums ▸ Learns.nothing.ran p
  have learnsBoth : Learns (.ofConfig default) [("k", ⟨.add, false⟩), ("k", ⟨.mul, false⟩)] _ :=
    (products ▸ learnsSum.ran q :)
  obtain ⟨stands, -, -, runs, -⟩ := unanimous_throughout learnsSum
  obtain ⟨-, -, -, -, disagrees⟩ := unanimous_throughout learnsBoth
  have through : GoesThrough p ⟨18⟩ ⟨15⟩ ⟨16⟩ ⟨17⟩ "k" := ⟨rfl, ⟨⟨13⟩, ⟨14⟩, false, rfl, rfl⟩, rfl⟩
  have never := disagrees "k" ⟨.add, false⟩ ⟨.mul, false⟩ (by simp) (by simp) (by simp)
  refine ⟨p, q, _, _, madeSum, madeProduct, learnsSum, (stands _ _).mpr ⟨by simp, by simp⟩,
    fun v ran => ?_, learnsBoth, (never _ _ (Learns.nothing.ran p)).1, (never _ _ .nothing).2 p⟩
  have isNode : ⟨18⟩ ∈ p.nodes := by
    change ⟨18⟩ ∈ (keyedOperator .add).descendants ⟨20⟩
    decide
  refine (runs p).2 v ran ⟨18⟩ isNode rfl ⟨15⟩ ⟨16⟩ ⟨17⟩ "k" ⟨.add, false⟩ through ?_
  rw [sums]
  exact ⟨by simp, by simp⟩

end Proxy

end Unravel
