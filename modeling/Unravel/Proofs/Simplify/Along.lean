import Unravel.Proofs.Program.Change
import Unravel.Proofs.Simplify.Run
import Unravel.Proofs.Simplify.Steadily

/-!
Simplification along a relation between programs. If every change that an action makes is one of the
relation, the program that it leaves when it succeeds is related to the one that it found
(`SimplifyM.Along`). When it fails, at least the links of the store are intact.

What a run that visits nodes finds where it has something to do (`SimplifyM.Visits`), and what has
been kept by then.
-/

namespace Unravel.SimplifyM

/--
A relation that changes can go along: where it has led, it leads on, and it keeps the links of the
store. -/
structure Course (R : Program → Program → Prop) : Prop where
  stay : ∀ {p q}, R p q → R q q
  trans : ∀ {p q r}, R p q → R q r → R p r
  follows : ∀ {p q}, R p q → p.Follows q

variable {R : Program → Program → Prop} {p : Program} {α β ι : Type} {action : SimplifyM α}
  {next : α → SimplifyM β} {post mid : α → Program → Prop} {post' : β → Program → Prop}

/-- From a program, an action goes along a relation, and a condition holds when it succeeds. -/
def Along (R : Program → Program → Prop) (p : Program) (action : SimplifyM α)
    (post : α → Program → Prop) :
    Prop :=
  ∀ c : Context, match action ⟨p, c⟩ with
    | .ok result w => R p w.program ∧ post result w.program
    | .error _ w => p.Follows w.program

namespace Along

theorem mono (along : Along R p action mid) (weaker : ∀ a q, R p q → mid a q → post a q) :
    Along R p action post := by
  intro c
  have result := along c
  split at result
  · exact ⟨result.1, weaker _ _ result.1 result.2⟩
  · exact result

theorem toAny (along : Along R p action mid) :
    Along R p action any := mono along fun _ _ _ _ => trivial

theorem pure {result : α} (here : R p p) (holds : post result p) : Along R p (pure result) post :=
  fun _ => ⟨here, holds⟩

theorem throw {e : Error} (rooted : p.Rooted) : Along R p (throw e) post := fun _ => .refl rooted

theorem program {next : Program → SimplifyM β} (rest : Along R p (next p) post') :
    Along R p (SimplifyM.program >>= next) post' := fun c => rest c

theorem context {next : Context → SimplifyM β} (rest : ∀ c, Along R p (next c) post') :
    Along R p (SimplifyM.context >>= next) post' := fun c => rest c c

theorem snippet {id : NodeId} {next : String → SimplifyM β}
    (rest : ∀ text, Along R p (next text) post') :
    Along R p (SimplifyM.snippet id >>= next) post' := fun c => rest _ c

theorem nodesWhere {test : Program → NodeId → Bool} {next : List NodeId → SimplifyM β}
    (rest : ∀ ids, (∀ id ∈ ids, id ∈ p.nodes ∧ test p id = true) → Along R p (next ids) post') :
    Along R p (SimplifyM.nodesWhere test >>= next) post' :=
  fun c => rest _ (fun _ member => List.mem_filter.mp member) c

theorem log (e : Event) (here : R p p) : Along R p (SimplifyM.log e) fun _ q => q = p :=
  fun _ => ⟨here, rfl⟩

theorem record (kind : EventKind) (node : NodeId) (message : String) (here : R p p) :
    Along R p (SimplifyM.record kind node message) fun _ q => q = p := log _ here

section Course

variable (course : Course R)

include course

theorem edit {f : Program → Except Error (α × Program)} (here : R p p)
    (leads : ∀ a q, f p = .ok (a, q) → R p q ∧ post a q) : Along R p (SimplifyM.edit f) post := by
  intro c
  simp only [SimplifyM.edit]
  cases done : f p with
  | error e => exact course.follows here
  | ok result => exact leads result.1 result.2 done

theorem bind (first : Along R p action mid)
    (second : ∀ a q, R p q → mid a q → Along R q (next a) post') :
    Along R p (action >>= next) post' := by
  intro c
  have result := first c
  change match EStateM.bind action next ⟨p, c⟩ with
    | .ok result w => R p w.program ∧ post' result w.program
    | .error _ w => p.Follows w.program
  rw [EStateM.bind]
  split at result
  · rename_i a w made
    rw [made]
    have rest := second a w.program result.1 result.2 w.context
    split at rest
    · rename_i made
      simp only [made]
      exact ⟨course.trans result.1 rest.1, rest.2⟩
    · rename_i made
      simp only [made]
      exact (course.follows result.1).trans rest
  · rename_i made
    rw [made]
    exact result

theorem bindAny (first : Along R p action any) (second : ∀ a q, R p q → Along R q (next a) post') :
    Along R p (action >>= next) post' :=
  bind course first fun a q leads _ => second a q leads

theorem discard (first : Along R p action mid) :
    Along R p (Functor.discard action) fun _ q => ∃ a, mid a q :=
  bind course first fun a _ leads holds => pure (course.stay leads) ⟨a, holds⟩

theorem replaceAndRecord {kind : EventKind} {label : String} {target replacement : NodeId}
    {mid : NodeId → Program → Prop} (replaces : Along R p (replace target replacement) mid) :
    Along R p (SimplifyM.replaceAndRecord kind label target replacement)
      fun _ q => ∃ placed, mid placed q := by
  refine snippet
    fun before => bind course replaces fun placed q leads holds => snippet fun text => ?_
  refine mono (record kind placed _ (course.stay leads)) fun _ r _ same => ?_
  exact ⟨placed, same ▸ holds⟩

/-! ### Loops -/

theorem foldlM_met {σ : Type} {step : σ → ι → SimplifyM σ} (done : List ι)
    (kept : List ι → σ → Program → Prop) {items : List ι} {start : σ} (here : R p p)
    (holds : kept done start p)
    (each : ∀ before item behind, done ++ items = before ++ item :: behind → ∀ state q, R p q →
      kept before state q → Along R q (step state item) (kept (before ++ [item]))) :
    Along R p (items.foldlM step start) (kept (done ++ items)) := by
  induction items generalizing p done start with
  | nil =>
    rw [List.append_nil]
    exact pure here holds
  | cons head rest induction =>
    rw [List.foldlM_cons]
    refine bind course (each done head rest rfl start p here holds) fun state q leads holds => ?_
    rw [List.append_cons] at each ⊢
    exact induction _ (course.stay leads) holds fun before item behind split state r further =>
      each before item behind split state r (course.trans leads further)

theorem foldlM {σ : Type} {step : σ → ι → SimplifyM σ} {kept : σ → Program → Prop}
    {items : List ι} {start : σ} (here : R p p) (holds : kept start p)
    (each : ∀ item ∈ items, ∀ state q, R p q → kept state q → Along R q (step state item) kept) :
    Along R p (items.foldlM step start) kept := by
  refine foldlM_met course [] (fun _ => kept) here holds fun before item behind split => ?_
  exact each item (by rw [← List.nil_append items, split]; simp)

theorem anyChange {step : ι → SimplifyM Bool} {items : List ι} (here : R p p)
    (each : ∀ item ∈ items, ∀ q, R p q → Along R q (step item) any) :
    Along R p (SimplifyM.anyChange items step) any := by
  refine foldlM course here trivial fun item member changed q leads _ => ?_
  exact bind course (each item member q leads) fun _ _ leads _ => pure (course.stay leads) trivial

omit course in
theorem ifAttached {id : NodeId} {step : SimplifyM Bool} (here : R p p)
    (steps : p.isAttached id = true → Along R p step any) :
    Along R p (SimplifyM.ifAttached id step) any := by
  refine program ?_
  split
  · rename_i attached
    exact steps attached
  · exact pure here trivial

theorem visit {test : Program → NodeId → Bool} {step : NodeId → SimplifyM Bool} (here : R p p)
    (steps : ∀ id q, R p q → id ∈ p.nodes → test p id = true → q.isAttached id = true →
      Along R q (step id) any) : Along R p (SimplifyM.visit test step) any := by
  refine nodesWhere fun ids passed => anyChange course here fun id member q leads => ?_
  obtain ⟨isNode, passes⟩ := passed id member
  exact ifAttached (course.stay leads) fun attached => steps id q leads isNode passes attached

/-- What a loop keeps may depend on the items that are still to come. -/
theorem forIn_rest {items : List ι} {body : ι → PUnit → SimplifyM (ForInStep PUnit)}
    (inv : List ι → Program → Prop) (here : R p p) (holds : inv items p)
    (each : ∀ item rest q, item ∈ items → R p q → inv (item :: rest) q →
      Along R q (body item .unit) (goesOn (inv rest))) :
    Along R p (forIn items PUnit.unit body) fun _ q => inv [] q := by
  induction items generalizing p with
  | nil =>
    rw [List.forIn_nil]
    exact pure here holds
  | cons head rest induction =>
    rw [List.forIn_cons]
    refine bind course (each head rest p (List.mem_cons_self ..) here holds)
      fun yielded q leads holds => ?_
    obtain ⟨rfl, holds⟩ := holds
    exact induction (course.stay leads) holds fun item rest r member further =>
      each item rest r (List.mem_cons_of_mem _ member) (course.trans leads further)

theorem forIn {items : List ι} {body : ι → PUnit → SimplifyM (ForInStep PUnit)}
    (inv : Program → Prop) (here : R p p) (holds : inv p)
    (each : ∀ item ∈ items, ∀ q, R p q → inv q → Along R q (body item .unit) (goesOn inv)) :
    Along R p (forIn items PUnit.unit body) fun _ q => inv q :=
  forIn_rest course (fun _ => inv) here holds fun item _ q member => each item member q

theorem yields {action : SimplifyM α} {mid : α → Program → Prop} {inv : Program → Prop}
    (runs : Along R p action mid) (holds : ∀ a q, R p q → mid a q → inv q) :
    Along R p (do let _ ← action; return ForInStep.yield PUnit.unit) (goesOn inv) :=
  bind course runs fun a q leads reached => pure (course.stay leads) ⟨rfl, holds a q leads reached⟩

/-- An action whose result is a constant. -/
theorem thenReturn {result : β} (runs : Along R p action mid) :
    Along R p (do let _ ← action; return result) any :=
  bind course runs fun _ _ leads _ => pure (course.stay leads) trivial

end Course

end Along

/-! ### Runs that visit nodes -/

variable {test : Program → NodeId → Bool} {step : NodeId → SimplifyM Bool}
  {start found left last w : Workspace} {id : NodeId} {items behind : List NodeId} {changed : Bool}
  {Inv : Program → Prop}

/-- In a run that succeeds, a step that changes something is made at a node: it finds one workspace
and leaves another one, and the run ends with a third. -/
structure Visits (test : Program → NodeId → Bool) (step : NodeId → SimplifyM Bool)
    (start : Workspace) (id : NodeId) (found left last : Workspace) : Prop where
  exists_split :
    ∃ before behind, start.program.nodes.filter (test start.program) = before ++ id :: behind ∧
      (∃ changed, anyChange before (fun id => ifAttached id (step id)) start = .ok changed found) ∧
      ∃ changed, anyChange behind (fun id => ifAttached id (step id)) left = .ok changed last
  attached : found.program.isAttached id = true
  stepped : step id found = .ok true left

theorem exists_of_ifAttached {action : SimplifyM Bool}
    (ran : ifAttached id action w = .ok changed last) :
    (w.program.isAttached id = true ∧ action w = .ok changed last) ∨ last = w := by
  rw [ifAttached, program_bind] at ran
  split at ran
  · rename_i attached
    exact .inl ⟨attached, ran⟩
  · exact .inr (EStateM.Result.ok.inj ran).2.symm

theorem of_anyChange (start : Inv w.program) (each : ∀ id ∈ items, ∀ w changed v, Inv w.program →
      w.program.isAttached id = true → step id w = .ok changed v → Inv v.program)
    (ran : anyChange items (fun id => ifAttached id (step id)) w = .ok changed last) :
    Inv last.program := by
  induction items generalizing w changed with
  | nil =>
    obtain ⟨-, rfl⟩ := EStateM.Result.ok.inj ran
    exact start
  | cons head rest induction =>
    rw [anyChange_cons] at ran
    obtain ⟨_, mid, _, stepped, further, -⟩ := exists_of_or ran
    rw [List.forall_mem_cons] at each
    refine induction ?_ each.2 further
    rcases exists_of_ifAttached stepped with ⟨attached, made⟩ | rfl
    · exact each.1 w _ mid start attached made
    · exact start

namespace Visits

variable (visits : Visits test step start id found left last)

include visits

theorem isNode : id ∈ start.program.nodes ∧ test start.program id = true := by
  obtain ⟨before, behind, split, -⟩ := visits.exists_split
  exact List.mem_filter.mp (split ▸ List.mem_append_right _ (List.mem_cons_self ..))

theorem run : ∃ changed, visit test step start = .ok changed last := by
  obtain ⟨before, behind, split, ⟨first, swept⟩, second, further⟩ := visits.exists_split
  have stepped : ifAttached id (step id) found = .ok true left := by
    rw [ifAttached, program_bind, if_pos visits.attached, visits.stepped]
  have rest : anyChange (id :: behind) (fun id => ifAttached id (step id)) found =
      .ok (true || second) last := by
    rw [anyChange_cons, bind_of_ok _ stepped, bind_of_ok _ further]
    rfl
  have whole {before : List NodeId} {start : Workspace} {first : Bool}
      (swept : anyChange before (fun id => ifAttached id (step id)) start = .ok first found) :
      ∃ changed, anyChange (before ++ id :: behind) (fun id => ifAttached id (step id)) start =
        .ok changed last := by
    induction before generalizing start first with
    | nil =>
      obtain ⟨-, rfl⟩ := EStateM.Result.ok.inj swept
      exact ⟨_, rest⟩
    | cons head before induction =>
      rw [anyChange_cons] at swept
      obtain ⟨_, mid, _, stepped, further, -⟩ := exists_of_or swept
      obtain ⟨changed, ran⟩ := induction further
      rw [List.cons_append, anyChange_cons, bind_of_ok _ stepped, bind_of_ok _ ran]
      exact ⟨_, rfl⟩
  rw [visit, nodesWhere_bind, split]
  exact whole swept

theorem invariant (Inv : Program → Prop) (here : Inv start.program)
    (each : ∀ id w changed v, Inv w.program →
    w.program.isAttached id = true → test start.program id = true → step id w = .ok changed v →
    Inv v.program) :
    Inv found.program := by
  obtain ⟨before, behind, split, ⟨_, swept⟩, -⟩ := visits.exists_split
  refine of_anyChange here (fun other member w changed v holds attached made => ?_) swept
  have isCandidate : other ∈ start.program.nodes.filter (test start.program) := by
    rw [split]
    exact List.mem_append_left _ member
  exact each other w changed v holds attached (List.mem_filter.mp isCandidate).2 made

/-- What each step keeps holds at the end if it does after the visit. The steps that are left are
made at nodes that come later in the walk. -/
theorem invariant_last (Inv : Program → Prop) (here : Inv left.program)
    (each : ∀ other w changed v, Inv w.program →
    w.program.isAttached other = true → [id, other].Sublist start.program.nodes →
    test start.program other = true →
      step other w = .ok changed v → Inv v.program) : Inv last.program := by
  obtain ⟨before, behind, split, -, _, swept⟩ := visits.exists_split
  refine of_anyChange here (fun other member w changed v holds attached made => ?_) swept
  have later : [id, other].Sublist start.program.nodes := by
    refine List.Sublist.trans ?_ (List.filter_sublist (p := test start.program))
    rw [split]
    exact (List.cons_sublist_cons.mpr (List.singleton_sublist.mpr member)).trans
      (List.sublist_append_right ..)
  have isCandidate : other ∈ start.program.nodes.filter (test start.program) := by
    rw [split]
    exact List.mem_append_right _ (List.mem_cons_of_mem _ member)
  exact each other w changed v holds attached later (List.mem_filter.mp isCandidate).2 made

omit visits in
/-- A visit goes along a relation if all steps do: up to it, over it and after it. -/
theorem along {R : Program → Program → Prop} {p : Program} {c : Context}
    (visits : Visits test step ⟨p, c⟩ id found left last) (course : Course R) (here : R p p)
    (steps : ∀ id q, R p q → q.isAttached id = true → Along R q (step id) any) :
    R p found.program ∧ R found.program left.program ∧ R left.program last.program := by
  have leads {id : NodeId} {w v : Workspace} {changed : Bool} (before : R p w.program)
      (attached : w.program.isAttached id = true) (made : step id w = .ok changed v) :
      R w.program v.program := by
    have result := steps id w.program before attached w.context
    rw [show (⟨w.program, w.context⟩ : Workspace) = w from rfl, made] at result
    exact result.1
  have atFound : R p found.program :=
    visits.invariant (R p) here fun id w changed v before attached _ made =>
      course.trans before (leads before attached made)
  have stepped := leads atFound visits.attached visits.stepped
  refine ⟨atFound, stepped, visits.invariant_last (R left.program) (course.stay stepped)
    fun id w changed v further attached _ _ made => ?_⟩
  have before := course.trans (course.trans atFound stepped) further
  exact course.trans further (leads before attached made)

end Visits

theorem anyChange_append_of_silent {front rest : List NodeId}
    (silent : ∀ other ∈ front, step other start = .ok false start) :
    anyChange (front ++ rest) (fun id => ifAttached id (step id)) start =
      anyChange rest (fun id => ifAttached id (step id)) start := by
  induction front with
  | nil => rfl
  | cons head front induction =>
    rw [List.forall_mem_cons] at silent
    have stays : ifAttached head (step head) start = .ok false start := by
      rw [ifAttached, program_bind]
      split
      · exact silent.1
      · rfl
    rw [List.cons_append, anyChange_cons, bind_of_ok _ stays]
    simp only [Bool.false_or, bind_pure, induction silent.2]

theorem visits_first {front : List NodeId} {result : Bool}
    (split : start.program.nodes.filter (test start.program) = front ++ id :: behind)
    (silent : ∀ other ∈ front, step other start = .ok false start)
    (attached : start.program.isAttached id = true) (ran : visit test step start = .ok result last)
    (changes : ∀ v, step id start ≠ .ok false v) :
    ∃ left, Visits test step start id start left last := by
  rw [visit, nodesWhere_bind, split, anyChange_append_of_silent silent, anyChange_cons] at ran
  obtain ⟨changed, left, _, stepped, further, -⟩ := exists_of_or ran
  rw [ifAttached, program_bind, if_pos attached] at stepped
  obtain rfl : changed = true := by
    cases changed with
    | true => rfl
    | false => exact absurd stepped (changes left)
  have nothing : anyChange (front ++ []) (fun id => ifAttached id (step id)) start =
      .ok false start :=
    anyChange_append_of_silent silent
  rw [List.append_nil] at nothing
  exact ⟨left, ⟨front, behind, split, ⟨_, nothing⟩, _, further⟩, attached, stepped⟩

end Unravel.SimplifyM
