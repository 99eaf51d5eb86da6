import Unravel.Proofs.Program.Remnant
import Unravel.Proofs.Simplify.Run
import Unravel.Proofs.Simplify.Template

/-!
Simplifications step by step: one relation leads from the start of a run to its end, and another one
to where it fails (`SimplifyM.Through`). There is a rule for each way to put actions together.

What is left of a program while it is simplified (`SimplifyM.Remains`), whether a step succeeds or
fails. Each way to take nodes out asks whether these may be taken out.
-/

namespace Unravel.SimplifyM

/-- Two relations that steps can go along: where the first has led it leads on, and a failure after
that is a failure of the whole. -/
structure Route (R E : Workspace → Workspace → Prop) : Prop where
  stay : ∀ {w v}, R w v → R v v
  trans : ∀ {w v u}, R w v → R v u → R w u
  fails : ∀ {w v u}, R w v → E v u → E w u

variable {R E : Workspace → Workspace → Prop} {w : Workspace} {α β ι : Type} {action : SimplifyM α}
  {next : α → SimplifyM β} {post mid : α → Workspace → Prop} {post' : β → Workspace → Prop}

/-- From a workspace, an action goes along two relations, and a condition holds when it succeeds. -/
def Through (R E : Workspace → Workspace → Prop) (w : Workspace) (action : SimplifyM α)
    (post : α → Workspace → Prop) : Prop :=
  match action w with
  | .ok result v => R w v ∧ post result v
  | .error _ v => E w v

/-- Nothing but the relations is asked for. -/
def always (_ : α) (_ : Workspace) : Prop := True

/-- A loop goes on where something holds. -/
def continues (inv : Workspace → Prop) (step : ForInStep PUnit) (v : Workspace) :
    Prop := step = .yield .unit ∧ inv v

namespace Through

theorem of_ok {result : α} {v : Workspace} (through : Through R E w action post)
    (ran : action w = .ok result v) :
    R w v ∧ post result v := by
  rw [Through, ran] at through
  exact through

theorem of_error {e : Error} {v : Workspace} (through : Through R E w action post)
    (ran : action w = .error e v) :
    E w v := by
  rw [Through, ran] at through
  exact through

theorem of_success (each : ∀ a v, action w = .ok a v → R w v ∧ post a v) :
    Through R (fun _ _ => True) w action post := by
  rw [Through]
  split
  · rename_i ran
    exact each _ _ ran
  · trivial

theorem mono (through : Through R E w action mid) (weaker : ∀ a v, R w v → mid a v → post a v) :
    Through R E w action post := by
  rw [Through] at through ⊢
  split at through
  · exact ⟨through.1, weaker _ _ through.1 through.2⟩
  · exact through

theorem imp {R' E' : Workspace → Workspace → Prop} (through : Through R E w action post)
    (leads : ∀ {v}, R w v → R' w v) (fails : ∀ {v}, E w v → E' w v) :
    Through R' E' w action post := by
  rw [Through] at through ⊢
  split at through
  · exact ⟨leads through.1, through.2⟩
  · exact fails through

theorem toAlways (through : Through R E w action mid) : Through R E w action always :=
  mono through fun _ _ _ _ => trivial

theorem pure {result : α} (here : R w w) (holds : post result w) :
    Through R E w (pure result) post := ⟨here, holds⟩

theorem throw {e : Error} (fails : E w w) : Through R E w (throw e) post := fails

theorem program {next : Program → SimplifyM β} (rest : Through R E w (next w.program) post') :
    Through R E w (SimplifyM.program >>= next) post' := rest

theorem context {next : Context → SimplifyM β} (rest : Through R E w (next w.context) post') :
    Through R E w (SimplifyM.context >>= next) post' := rest

theorem snippet {id : NodeId} {next : String → SimplifyM β}
    (rest : ∀ text, Through R E w (next text) post') :
    Through R E w (SimplifyM.snippet id >>= next) post' := by
  rw [Through, snippet_bind]
  exact rest _

theorem nodesWhere {test : Program → NodeId → Bool} {next : List NodeId → SimplifyM β}
    (rest : ∀ ids, (∀ id ∈ ids, id ∈ w.program.nodes ∧ test w.program id = true) →
      Through R E w (next ids) post') :
    Through R E w (SimplifyM.nodesWhere test >>= next) post' := by
  rw [Through, nodesWhere_bind]
  exact rest _ fun _ member => List.mem_filter.mp member

theorem edit {f : Program → Except Error (α × Program)} (fails : E w w)
    (leads : ∀ a q, f w.program = .ok (a, q) →
      R w { w with program := q } ∧ post a { w with program := q }) :
    Through R E w (SimplifyM.edit f) post := by
  rw [Through, SimplifyM.edit]
  cases done : f w.program with
  | error e => exact fails
  | ok result => exact leads result.1 result.2 done

theorem build {made : α → List NodeId} {action : StateM Tree α} (steady : w.program.Steady)
    (makes : Tree.Makes [] made action)
    (leads : ∀ a grown, w.program.tree.Building (made a) grown →
      R w { w with program := { w.program with tree := grown } } ∧
        post a { w with program := { w.program with tree := grown } }) :
    Through R E w (SimplifyM.build action) post := by
  have building :=
    makes w.program.tree [] w.program.tree (.start steady.linked steady.wellBound steady.nonempty)
  rw [List.append_nil] at building
  exact leads _ _ building

section Route

variable (route : Route R E)

include route

theorem bind (first : Through R E w action mid)
    (second : ∀ a v, R w v → mid a v → Through R E v (next a) post') :
    Through R E w (action >>= next) post' := by
  change match EStateM.bind action next w with
    | .ok result v => R w v ∧ post' result v
    | .error _ v => E w v
  rw [EStateM.bind]
  rw [Through] at first
  split at first
  · rename_i a v made
    rw [made]
    have rest := second a v first.1 first.2
    rw [Through] at rest
    split at rest
    · rename_i made
      simp only [made]
      exact ⟨route.trans first.1 rest.1, rest.2⟩
    · rename_i made
      simp only [made]
      exact route.fails first.1 rest
  · rename_i made
    rw [made]
    exact first

theorem bindAlways (first : Through R E w action always)
    (second : ∀ a v, R w v → Through R E v (next a) post') :
    Through R E w (action >>= next) post' :=
  bind route first fun a v leads _ => second a v leads

/-- An action whose result is a constant. -/
theorem thenReturn {result : β} (runs : Through R E w action always) :
    Through R E w (do let _ ← action; return result) always :=
  bindAlways route runs fun _ _ leads => pure (route.stay leads) trivial

theorem discard (runs : Through R E w action always) :
    Through R E w (Functor.discard action) always :=
  thenReturn route runs

/-! ### Loops -/

theorem foldlM_met {σ : Type} {step : σ → ι → SimplifyM σ} (done : List ι)
    (kept : List ι → σ → Workspace → Prop) {items : List ι} {start : σ} (here : R w w)
    (holds : kept done start w)
    (each : ∀ before item behind, done ++ items = before ++ item :: behind → ∀ state v, R w v →
      kept before state v → Through R E v (step state item) (kept (before ++ [item]))) :
    Through R E w (items.foldlM step start) (kept (done ++ items)) := by
  induction items generalizing w done start with
  | nil =>
    rw [List.append_nil]
    exact pure here holds
  | cons head rest induction =>
    rw [List.foldlM_cons]
    refine bind route (each done head rest rfl start w here holds) fun state v leads holds => ?_
    rw [List.append_cons] at each ⊢
    exact induction _ (route.stay leads) holds fun before item behind split state u further =>
      each before item behind split state u (route.trans leads further)

theorem foldlM {σ : Type} {step : σ → ι → SimplifyM σ} {kept : σ → Workspace → Prop}
    {items : List ι} {start : σ} (here : R w w) (holds : kept start w)
    (each : ∀ item ∈ items, ∀ state v, R w v → kept state v →
      Through R E v (step state item) kept) :
    Through R E w (items.foldlM step start) kept := by
  refine foldlM_met route [] (fun _ => kept) here holds fun before item behind split => ?_
  exact each item (by rw [← List.nil_append items, split]; simp)

theorem anyChange {step : ι → SimplifyM Bool} {items : List ι} (here : R w w)
    (each : ∀ item ∈ items, ∀ v, R w v → Through R E v (step item) always) :
    Through R E w (SimplifyM.anyChange items step) always := by
  refine foldlM route here trivial fun item member changed v leads _ => ?_
  exact bind route (each item member v leads) fun _ _ leads _ => pure (route.stay leads) trivial

omit route in
theorem ifAttached {id : NodeId} {step : SimplifyM Bool} (here : R w w)
    (steps : w.program.isAttached id = true → Through R E w step always) :
    Through R E w (SimplifyM.ifAttached id step) always := by
  refine program ?_
  split
  · rename_i attached
    exact steps attached
  · exact pure here trivial

theorem visit {test : Program → NodeId → Bool} {step : NodeId → SimplifyM Bool} (here : R w w)
    (steps : ∀ id v, R w v → id ∈ w.program.nodes → test w.program id = true →
      v.program.isAttached id = true →
      Through R E v (step id) always) : Through R E w (SimplifyM.visit test step) always := by
  refine nodesWhere fun ids passed => anyChange route here fun id member v leads => ?_
  obtain ⟨isNode, passes⟩ := passed id member
  exact ifAttached (route.stay leads) fun attached => steps id v leads isNode passes attached

/-- What a loop keeps may depend on the items that are still to come. -/
theorem forIn_rest {items : List ι} {body : ι → PUnit → SimplifyM (ForInStep PUnit)}
    (inv : List ι → Workspace → Prop) (here : R w w) (holds : inv items w)
    (each : ∀ item rest v, item ∈ items → R w v → inv (item :: rest) v →
      Through R E v (body item .unit) (continues (inv rest))) :
    Through R E w (forIn items PUnit.unit body) fun _ v => inv [] v := by
  induction items generalizing w with
  | nil =>
    rw [List.forIn_nil]
    exact pure here holds
  | cons head rest induction =>
    rw [List.forIn_cons]
    refine bind route (each head rest w (List.mem_cons_self ..) here holds)
      fun yielded v leads holds => ?_
    obtain ⟨rfl, holds⟩ := holds
    exact induction (route.stay leads) holds fun item rest u member further =>
      each item rest u (List.mem_cons_of_mem _ member) (route.trans leads further)

theorem forIn {items : List ι} {body : ι → PUnit → SimplifyM (ForInStep PUnit)} (here : R w w)
    (each : ∀ item ∈ items,
      ∀ v, R w v → Through R E v (body item .unit) (continues fun _ => True)) :
    Through R E w (forIn items PUnit.unit body) always :=
  toAlways (forIn_rest route (fun _ _ => True) here trivial
    fun item _ v member leads _ => each item member v leads)

theorem yields (runs : Through R E w action always) :
    Through R E w (do let _ ← action; return ForInStep.yield PUnit.unit)
      (continues fun _ => True) :=
  bindAlways route runs fun _ _ leads => pure (route.stay leads) ⟨rfl, trivial⟩

end Route

end Through

/-! ### Contexts -/

def SameContext (w v : Workspace) : Prop := v.context = w.context

theorem route_sameContext : Route SameContext SameContext where
  stay _ := rfl
  trans first second := second.trans first
  fails first second := second.trans first

def SparesContext (action : SimplifyM α) :
    Prop := ∀ w, Through SameContext SameContext w action always

namespace SparesContext

theorem pure (result : α) : SparesContext (pure result : SimplifyM α) := fun _ => .pure rfl trivial

theorem throw (e : Error) : SparesContext (throw e : SimplifyM α) := fun _ => .throw rfl

theorem edit (f : Program → Except Error (α × Program)) : SparesContext (SimplifyM.edit f) :=
  fun _ => .edit rfl fun _ _ _ => ⟨rfl, trivial⟩

theorem program {next : Program → SimplifyM β} (rest : ∀ p, SparesContext (next p)) :
    SparesContext (SimplifyM.program >>= next) := fun w => .program (rest w.program w)

theorem bind (first : SparesContext action) (rest : ∀ a, SparesContext (next a)) :
    SparesContext (action >>= next) :=
  fun w => .bindAlways route_sameContext (first w) fun a v _ => rest a v

theorem foldlM {σ : Type} {step : σ → ι → SimplifyM σ} {items : List ι}
    (each : ∀ state item, SparesContext (step state item)) (start : σ) :
    SparesContext (items.foldlM step start) :=
  fun _ => .foldlM route_sameContext rfl trivial fun item _ state v _ _ => each state item v

end SparesContext

theorem sparesContext_expand (e : Expansion) (limit : Nat) (expression : NodeId) :
    SparesContext (e.expand limit expression) := by
  induction limit generalizing expression with
  | zero => exact .throw _
  | succ limit induction =>
    refine .program
      fun p => .bind (.edit _) fun (_, copies) => .foldlM (fun root (id, param, index) => ?_) _
    have put (value : NodeId) :
        SparesContext (if copies.getD id id = root then Pure.pure value else do
        SimplifyM.build (modify fun t => t.replace (copies.getD id id) value)
        return root) := by
      split
      · exact .pure _
      · exact .bind (.edit _) fun _ => .pure _
    dsimp only
    split
    · exact .bind (.edit _) put
    · exact .bind (.edit _) put
    · exact .bind (.edit _) put
    · exact .bind (induction _) put
    · refine .program fun q => ?_
      split
      · exact .bind (induction _) put
      · exact .bind (.edit _) put

theorem sparesContext_instantiate (function : NodeId) (arguments : List NodeId) :
    SparesContext (instantiate function arguments) := by
  refine .program fun p => ?_
  split
  · exact .throw _
  · exact .bind (.edit _) fun params => sparesContext_expand _ _ _

theorem Through.of_runs {fails : Program → Prop} {done : α → Program → Prop}
    (runs : Runs fails w.program action done) (spares : SparesContext action)
    (ok : ∀ a q, q.Steady → w.program.Leads q → done a q →
      R w ⟨q, w.context⟩ ∧ post a ⟨q, w.context⟩)
    (error : ∀ q, q.Steady → fails q → E w ⟨q, w.context⟩) : Through R E w action post := by
  have result : match action w with
    | .ok a v => v.program.Steady ∧ w.program.Leads v.program ∧ done a v.program
    | .error _ v => v.program.Steady ∧ fails v.program := runs w.context
  have same := spares w
  rw [Through] at same ⊢
  split at same
  · rename_i a v ran
    rw [ran] at result
    obtain ⟨steady, leads, holds⟩ := result
    have here : v = ⟨v.program, w.context⟩ := by rw [← same.1]
    rw [here]
    exact ok a _ steady leads holds
  · rename_i e v ran
    rw [ran] at result
    have here : v = ⟨v.program, w.context⟩ := by rw [← same]
    rw [here]
    exact error _ result.1 result.2

/-! ### What is left of a program -/

variable {o : Program} {may : NodeId → Prop} {c : Context} {v : Workspace}
  {target replacement : NodeId}

/-- A workspace leads to another one with what is left of a program, where the same settings and
protected names are known as in a context. -/
structure Remains (o : Program) (may : NodeId → Prop) (c : Context) (w v : Workspace) : Prop where
  leads : w.program.Leads v.program
  remnant : o.Remnant may v.program
  config : v.context.config = c.config
  protectedNames : v.context.protectedNames = c.protectedNames

theorem Remains.stay (remains : Remains o may c w v) : Remains o may c v v :=
  ⟨.refl _, remains.remnant, remains.config, remains.protectedNames⟩

theorem route_remains : Route (Remains o may c) (Remains o may c) where
  stay := Remains.stay
  trans first second := ⟨first.leads.trans second.leads, second.remnant, second.config,
    second.protectedNames⟩
  fails first second := ⟨first.leads.trans second.leads, second.remnant, second.config,
    second.protectedNames⟩

abbrev Remaining (o : Program) (may : NodeId → Prop) (c : Context) (w : Workspace)
    (action : SimplifyM α) : Prop :=
  Through (Remains o may c) (Remains o may c) w action always

namespace Remains

theorem start (steady : o.Steady) :
    Remains o may c ⟨o, c⟩ ⟨o, c⟩ := ⟨.refl _, .start steady, rfl, rfl⟩

variable (here : Remains o may c w w)

include here

theorem steady : w.program.Steady := here.remnant.steady

theorem isProtected (name : String) : w.context.isProtected name = c.isProtected name := by
  rw [Context.isProtected, Context.isProtected, here.protectedNames]

theorem logs (e : Event) :
    Through (Remains o may c) (Remains o may c) w (SimplifyM.log e)
      fun _ v => v.program = w.program :=
  ⟨⟨.refl _, here.remnant, here.config, here.protectedNames⟩, rfl⟩

theorem log (e : Event) : Remaining o may c w (SimplifyM.log e) := (here.logs e).toAlways

theorem buildPieces {action : StateM Tree α} {pieces : List NodeId}
    (building : w.program.tree.Building pieces (action w.program.tree).2) :
    Through (Remains o may c) (Remains o may c) w (SimplifyM.build action) fun a v =>
      a = (action w.program.tree).1 ∧
      ∀ id ∈ pieces, v.program.tree.Allocated id ∧ ¬o.tree.Allocated id :=
  ⟨⟨(here.steady.grow building).2, here.remnant.grow building, here.config, here.protectedNames⟩,
    rfl, fun id member =>
      have loose := building.loose id member
      ⟨loose.allocated, fun isOld => loose.new (here.remnant.allocated isOld)⟩⟩

theorem build {made : α → List NodeId} {action : StateM Tree α}
    (makes : Tree.Makes [] made action) :
    Through (Remains o may c) (Remains o may c) w (SimplifyM.build action) fun a v =>
      ∀ id ∈ made a, v.program.tree.Allocated id ∧ ¬o.tree.Allocated id := by
  have steady := here.steady
  have building :=
    makes w.program.tree [] w.program.tree (.start steady.linked steady.wellBound steady.nonempty)
  rw [List.append_nil] at building
  refine .mono (here.buildPieces building) fun a v _ made => ?_
  rw [made.1]
  exact made.2

theorem replace (free : w.program.Free target) (allocated : w.program.tree.Allocated replacement)
    (isNew : ¬o.tree.Allocated replacement) (isMay : o.tree.Allocated target → may target) :
    Remaining o may c w (SimplifyM.replace target replacement) :=
  .edit here fun _ _ done =>
    have ⟨notBinding, notDeclaring⟩ := And.intro free.notBinding free.notDeclaring
    ⟨⟨(here.steady.replace allocated notBinding notDeclaring done).2,
      (here.remnant.replace notBinding notDeclaring allocated isNew isMay done).1, here.config,
      here.protectedNames⟩, trivial⟩

theorem discardReplace (free : w.program.Free target)
    (allocated : w.program.tree.Allocated replacement) (isNew : ¬o.tree.Allocated replacement)
    (isMay : o.tree.Allocated target → may target) :
    Remaining o may c w (discard (SimplifyM.replace target replacement)) :=
  .discard route_remains (here.replace free allocated isNew isMay)

theorem replaceAndRecord {kind : EventKind} {label : String} (free : w.program.Free target)
    (allocated : w.program.tree.Allocated replacement) (isNew : ¬o.tree.Allocated replacement)
    (isMay : o.tree.Allocated target → may target) :
    Remaining o may c w (SimplifyM.replaceAndRecord kind label target replacement) :=
  .snippet fun _ => .bindAlways route_remains (here.replace free allocated isNew isMay)
    fun _ _ remains =>
      .snippet fun _ => remains.stay.log _

/-- A new piece comes into the place of a node. -/
theorem exchange {action : StateM Tree NodeId} {put : NodeId → SimplifyM α}
    {post : α → Workspace → Prop} (makes : Tree.Makes [] Tree.piece action)
    (free : w.program.Free target) (puts : ∀ new v, Remains o may c w v → v.program.Free target →
      v.program.tree.Allocated new →
      ¬o.tree.Allocated new → Through (Remains o may c) (Remains o may c) v (put new) post) :
    Through (Remains o may c) (Remains o may c) w (SimplifyM.build action >>= put) post := by
  refine .bind route_remains (here.build makes) fun new v remains made => ?_
  obtain ⟨allocated, isNew⟩ := made new (List.mem_singleton_self _)
  exact puts new v remains (free.leads remains.leads) allocated isNew

theorem remove (notPattern : (w.program.node target).isPattern = false)
    (isMay : w.program.isAttached target = true → o.tree.Allocated target → may target) :
    Remaining o may c w (SimplifyM.remove target) := by
  refine .edit here fun _ q done => ?_
  cases removed : w.program.remove target with
  | error e => simp [removed, bind, Except.bind] at done
  | ok after =>
    simp only [removed, bind, Except.bind, pure, Except.pure, Except.ok.injEq, Prod.mk.injEq,
      true_and] at done
    subst done
    have rooted := here.remnant.rooted
    have attached := (Program.Taken.of_remove here.steady.sound removed).attached
    rw [← Program.isAttached_eq rooted.linked rooted.isTop.top] at attached
    exact ⟨⟨(here.steady.remove removed).2.1,
      (here.remnant.remove notPattern (isMay attached) removed).1, here.config,
        here.protectedNames⟩, trivial⟩

theorem expandCall {function expression call : NodeId} {label : String}
    (isMay : ∀ callee arguments, w.program.node call = .call callee arguments →
      o.tree.Allocated call → may call) :
    Remaining o may c w (SimplifyM.expandCall function expression call label) := by
  refine .program ?_
  split
  · rename_i callee arguments shape
    split
    · have steady := here.steady
      have linked := steady.linked
      have free : w.program.Free call := .of_isPlain steady (by rw [shape]; rfl)
      have allocated : ∀ argument ∈ arguments, w.program.tree.Allocated argument := by
        intro argument member
        refine linked.allocated_child call ?_
        rw [show w.program.tree.node call = .call callee arguments from shape]
        exact List.mem_cons_of_mem _ member
      have instantiated : Through (Remains o may c) (Remains o may c) w
          (instantiate function arguments)
            fun value v => v.program.tree.Allocated value ∧ ¬o.tree.Allocated value := by
        refine .of_runs (.instantiate steady allocated False.elim)
          (sparesContext_instantiate _ _) ?_ ?_
        · rintro value _ _ leads ⟨_, _, -, -, grown, rfl, building, -⟩
          have loose := building.loose value (List.mem_singleton_self _)
          exact ⟨⟨leads, here.remnant.grow building, here.config, here.protectedNames⟩,
            loose.allocated, fun isOld => loose.new (here.remnant.allocated isOld)⟩
        · intro q steadyAfter failed
          have same := failed.2.same
          rw [same] at steadyAfter ⊢
          exact ⟨.grow linked failed.2.grows, here.remnant.extend steadyAfter failed.2.grows,
            here.config, here.protectedNames⟩
      refine .bind route_remains instantiated
        fun value v remains made => .thenReturn route_remains ?_
      have isMay := isMay callee arguments shape
      exact remains.stay.replaceAndRecord (free.leads remains.leads) made.1 made.2 isMay
    · exact .pure here trivial
  · exact .pure here trivial

end Remains

end Unravel.SimplifyM
