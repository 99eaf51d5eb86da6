import Unravel.Proofs.Program.Steady
import Unravel.Simplify.Basic

/-!
Simplifications that leave a program steady, whether they succeed or fail (`SimplifyM.Steadily`),
and those that do not fail (`SimplifyM.Surely`), with a rule for each way to put them together.
-/

namespace Unravel

namespace Node

variable {α : Type}

/-- Whether a node is there and can neither bind names nor declare variables, wherever it stands. -/
def isPlain : Node α → Bool
  | identifier _ | assignmentPattern .. | restElement _ | arrayPattern _ | variableDeclarator ..
  | empty => false
  | _ => true

theorem isPlain_cases {n : Node α} (isPlain : n.isPlain = true) :
    n ≠ empty ∧ n.isPattern = false ∧ n.isDeclarator = false := by
  cases n <;> simp_all [Node.isPlain, isPattern, isDeclarator]

end Node

namespace Tree

variable {t : Tree} {id parent : NodeId}

theorem allocated_of_node_ne (there : t.node id ≠ .empty) : t.Allocated id := by
  by_contra missing
  exact there (node_of_not_allocated missing)

theorem allocated_of_isIdentifier (isIdentifier : (t.node id).isIdentifier = true) :
    t.Allocated id := by
  refine allocated_of_node_ne fun isEmpty => ?_
  rw [isEmpty] at isIdentifier
  cases isIdentifier

theorem children_of_isIdentifier (isIdentifier : (t.node id).isIdentifier = true) :
    (t.node id).children = [] := by
  cases shape : t.node id <;> simp_all [Node.isIdentifier, Node.identifier?, Node.children]

/-- Nothing lies in a node without children but this itself. -/
theorem Linked.eq_of_isWithin_leaf {outer : NodeId} (linked : t.Linked)
    (isLeaf : (t.node outer).children = []) (within : t.isWithin id outer = true) : id = outer := by
  by_contra different
  obtain ⟨child, member, -⟩ := linked.exists_child within different
  rw [isLeaf] at member
  cases member

/-- Nothing lies in an identifier but itself. -/
theorem Linked.eq_of_isWithin_identifier {outer : NodeId} (linked : t.Linked)
    (isIdentifier : (t.node outer).isIdentifier = true) (within : t.isWithin id outer = true) :
    id = outer :=
  linked.eq_of_isWithin_leaf (children_of_isIdentifier isIdentifier) within

theorem Linked.not_binds_of_parent (linked : t.Linked) (held : t.parent? id = some parent)
    (apart : ∀ part ∈ [.target, .name, .params, .pattern], id ∉ (t.node parent).part part) :
    ¬t.Binds id := by
  intro binds
  cases binds with
  | @place holder _ part isPlace isHeld =>
    have same := linked.parent?_of_mem_part isHeld
    rw [held, Option.some.injEq] at same
    refine apart part ?_ (same ▸ isHeld)
    simp only [List.mem_cons, List.not_mem_nil, or_false] at isPlace ⊢
    tauto
  | @nested holder _ outer isHeld =>
    have same := linked.parent?_of_mem_part isHeld
    rw [held, Option.some.injEq] at same
    exact apart .pattern (by simp) (same ▸ isHeld)

end Tree

namespace Program

variable {p q : Program} {id parent : NodeId} {binding : BindingId}

theorem Leads.isDeclarator (leads : p.Leads q) (isDeclarator : (p.node id).isDeclarator = true) :
    (q.node id).isDeclarator = true := by
  have allocated : p.tree.Allocated id := Tree.allocated_of_node_ne fun isEmpty => by
    rw [Program.node, isEmpty] at isDeclarator
    cases isDeclarator
  rwa [← Node.isDeclarator_tag, Program.node, leads.tag allocated, Node.isDeclarator_tag]

theorem Leads.isPattern_eq_false (leads : p.Leads q)
    (isDeclarator : (p.node id).isDeclarator = true) :
    (q.node id).isPattern = false := by
  have still := leads.isDeclarator isDeclarator
  cases shape : q.node id <;> simp_all [Node.isDeclarator, Node.isPattern]

/-- A node that may be replaced: it neither binds names nor declares variables. -/
structure Free (p : Program) (id : NodeId) : Prop where
  allocated : p.tree.Allocated id
  notBinding : ¬p.tree.Binds id
  notDeclaring : (p.node id).isDeclarator = false

namespace Free

theorem leads (free : p.Free id) (leads : p.Leads q) : q.Free id where
  allocated := leads.allocated free.allocated
  notBinding binds := free.notBinding (leads.binds free.allocated binds)
  notDeclaring := by
    rw [← Node.isDeclarator_tag, Program.node, leads.tag free.allocated, Node.isDeclarator_tag]
    exact free.notDeclaring

theorem of_isPlain (steady : p.Steady) (isPlain : (p.node id).isPlain = true) : p.Free id where
  allocated := Tree.allocated_of_node_ne (Node.isPlain_cases isPlain).1
  notBinding binds := by
    have isPattern := steady.wellBound.pattern binds
    rw [show (p.tree.node id).isPattern = false from (Node.isPlain_cases isPlain).2.1] at isPattern
    cases isPattern
  notDeclaring := (Node.isPlain_cases isPlain).2.2

theorem of_identifier (isIdentifier : (p.node id).isIdentifier = true)
    (notBinding : ¬p.tree.Binds id) :
    p.Free id where
  allocated := Tree.allocated_of_isIdentifier isIdentifier
  notBinding := notBinding
  notDeclaring := by
    cases shape : p.node id <;> simp_all [Node.isIdentifier, Node.identifier?, Node.isDeclarator]

end Free

theorem Sound.isUse_of_reference (sound : p.Sound) (belongs : p.bindingOf? id = some binding)
    {reference : NodeId} (member : reference ∈ (p.binding binding).references) :
    (p.node reference).isIdentifier = true ∧ (p.tree.role reference).isUse = true := by
  have describes := sound.describes
  rw [bindingOf?, Scopes.bindingOf?, describes.occurrences, Option.bind_eq_some_iff] at belongs
  obtain ⟨d, means, found⟩ := belongs
  have bound := Lexicon.meaning?_some means
  obtain ⟨use, isUse, reads, -⟩ := ((describes.references d binding bound found).2 reference).mp
    member
  simp only [Tree.lexicon, Tree.useAt?, Option.ite_none_right_eq_some,
    Option.bind_eq_some_iff] at isUse
  obtain ⟨-, name, spelled, isUse, -⟩ := isUse
  exact ⟨by rw [Node.isIdentifier, Program.node, spelled, Option.isSome_some], isUse⟩

theorem Sound.free_of_reference (sound : p.Sound) (belongs : p.bindingOf? id = some binding)
    {reference : NodeId} (member : reference ∈ (p.binding binding).references) :
    p.Free reference := by
  obtain ⟨isIdentifier, isUse⟩ := sound.isUse_of_reference belongs member
  exact .of_identifier isIdentifier (sound.rooted.linked.not_binds_of_isUse isUse)

end Program

namespace SimplifyM

variable {p : Program} {fails : Program → Prop} {α β : Type} {action : SimplifyM α}
  {next : α → SimplifyM β} {post mid : α → Program → Prop} {post' : β → Program → Prop}
  {inv : Program → Prop}

/-- From a program, an action leads to steady programs only, and a condition holds when it succeeds
and another one where it fails. -/
def Runs (fails : Program → Prop) (p : Program) (action : SimplifyM α)
    (post : α → Program → Prop) : Prop :=
  ∀ c : Context, match action ⟨p, c⟩ with
    | .ok result w => w.program.Steady ∧ p.Leads w.program ∧ post result w.program
    | .error _ w => w.program.Steady ∧ fails w.program

/-- An action may fail. -/
abbrev Steadily (p : Program) (action : SimplifyM α) (post : α → Program → Prop) : Prop :=
  Runs (fun _ => True) p action post

/-- An action does not fail. -/
abbrev Surely (p : Program) (action : SimplifyM α) (post : α → Program → Prop) : Prop :=
  Runs (fun _ => False) p action post

/-- Nothing but steady programs is asked for. -/
def any (_ : α) (_ : Program) : Prop := True

def goesOn (inv : Program → Prop) (step : ForInStep PUnit) (q : Program) : Prop :=
  step = .yield .unit ∧ inv q

namespace Runs

theorem monoAfter (runs : Runs fails p action mid)
    (weaker : ∀ a q, q.Steady → p.Leads q → mid a q → post a q) :
    Runs fails p action post := by
  intro c
  have result := runs c
  split at result
  · exact ⟨result.1, result.2.1, weaker _ _ result.1 result.2.1 result.2.2⟩
  · exact result

theorem mono (runs : Runs fails p action mid) (weaker : ∀ a q, mid a q → post a q) :
    Runs fails p action post :=
  monoAfter runs fun a q _ _ => weaker a q

theorem and {also : α → Program → Prop} (first : Runs fails p action post)
    (second : Runs fails p action also) :
    Runs fails p action fun a q => post a q ∧ also a q := by
  intro c
  have result := first c
  have further := second c
  split at result
  · rename_i made
    rw [made] at further
    exact ⟨result.1, result.2.1, result.2.2, further.2.2⟩
  · exact result

theorem monoFails {fails' : Program → Prop} (runs : Runs fails p action post)
    (weaker : ∀ q, fails q → fails' q) :
    Runs fails' p action post := by
  intro c
  have result := runs c
  split at result
  · exact result
  · exact ⟨result.1, weaker _ result.2⟩

theorem pure {result : α} (steady : p.Steady) (holds : post result p) :
    Runs fails p (pure result) post :=
  fun _ => ⟨steady, .refl p, holds⟩

theorem throw {e : Error} (holds : fails p) (steady : p.Steady) : Runs fails p (throw e) post :=
  fun _ => ⟨steady, holds⟩

theorem bind (first : Runs fails p action mid)
    (second : ∀ a q, q.Steady → p.Leads q → mid a q → Runs fails q (next a) post') :
    Runs fails p (action >>= next) post' := by
  intro c
  have result := first c
  change match EStateM.bind action next ⟨p, c⟩ with
    | .ok result w => w.program.Steady ∧ p.Leads w.program ∧ post' result w.program
    | .error _ w => w.program.Steady ∧ fails w.program
  rw [EStateM.bind]
  split at result
  · rename_i a w made
    rw [made]
    have rest := second a w.program result.1 result.2.1 result.2.2 w.context
    split at rest
    · rename_i made
      simp only [made]
      exact ⟨rest.1, result.2.1.trans rest.2.1, rest.2.2⟩
    · rename_i made
      simp only [made]
      exact rest
  · rename_i made
    rw [made]
    exact result

theorem program {next : Program → SimplifyM β} (rest : Runs fails p (next p) post') :
    Runs fails p (SimplifyM.program >>= next) post' := fun c => rest c

theorem context {next : Context → SimplifyM β} (rest : ∀ c, Runs fails p (next c) post') :
    Runs fails p (SimplifyM.context >>= next) post' := fun c => rest c c

theorem snippet {id : NodeId} {next : String → SimplifyM β}
    (rest : ∀ text, Runs fails p (next text) post') :
    Runs fails p (SimplifyM.snippet id >>= next) post' := fun c => rest _ c

theorem log (e : Event) (steady : p.Steady) : Runs fails p (SimplifyM.log e) fun _ q => q = p :=
  fun _ => ⟨steady, .refl p, rfl⟩

theorem record (kind : EventKind) (node : NodeId) (message : String) (steady : p.Steady) :
    Runs fails p (SimplifyM.record kind node message) fun _ q => q = p := log _ steady

theorem buildAny {action : StateM Tree α} {after : Tree} (isResult : (action p.tree).2 = after)
    (steady : Program.Steady { p with tree := after }) (leads : p.Leads { p with tree := after }) :
    Runs fails p (SimplifyM.build action)
      fun a q => q = { p with tree := after } ∧ a = (action p.tree).1 := by
  subst isResult
  exact fun _ => ⟨steady, leads, rfl, rfl⟩

theorem buildPieces {held : List NodeId} (action : StateM Tree α) (steady : p.Steady)
    (building : p.tree.Building held (action p.tree).2) :
    Runs fails p (SimplifyM.build action) fun a q =>
      q = { p with tree := (action p.tree).2 } ∧ a = (action p.tree).1 :=
  buildAny rfl (steady.grow building).1 (steady.grow building).2

theorem build {made : α → List NodeId} {action : StateM Tree α} (steady : p.Steady)
    (makes : Tree.Makes [] made action) :
    Runs fails p (SimplifyM.build action) fun a q =>
      ∃ grown, q = { p with tree := grown } ∧ p.tree.Building (made a) grown := by
  have building := makes p.tree [] p.tree (.start steady.linked steady.wellBound steady.nonempty)
  rw [List.append_nil] at building
  refine mono (buildPieces _ steady building) fun a q result => ?_
  obtain ⟨rfl, rfl⟩ := result
  exact ⟨_, rfl, building⟩

theorem adopt {node : Node NodeId} (steady : p.Steady)
    (free : ∀ child ∈ node.children, p.tree.IsTop child ∧ child ≠ p.root)
    (distinct : node.children.Nodup)
    (plain : ∀ part ∈ [.target, .name, .params, .declarators], node.part part = []) :
    Runs fails p (SimplifyM.build (Tree.alloc node)) fun id q => q.tree.Allocated id := by
  obtain ⟨after, leads⟩ := steady.adopt free distinct plain
  exact fun _ => ⟨after, leads, Tree.allocated_alloc.mpr (.inr rfl)⟩

theorem ask {f : Program → Except Error α} {next : α → SimplifyM β} (steady : p.Steady)
    (refuses : ∀ e, f p = .error e → fails p)
    (rest : ∀ a, f p = .ok a → Runs fails p (next a) post') :
    Runs fails p (SimplifyM.edit (fun p => (f p).map fun a => (a, p)) >>= next) post' := by
  cases answer : f p with
  | error e =>
    intro c
    have failed : (SimplifyM.edit (fun p => (f p).map fun a => (a, p)) >>= next) ⟨p, c⟩ =
        .error e ⟨p, c⟩ := by
      change EStateM.bind _ _ _ = _
      simp [EStateM.bind, edit, answer, Except.map]
    rw [failed]
    exact ⟨steady, refuses e answer⟩
  | ok a =>
    intro c
    have answered : (SimplifyM.edit (fun p => (f p).map fun a => (a, p)) >>= next) ⟨p, c⟩ =
        next a ⟨p, c⟩ := by
      change EStateM.bind _ _ _ = _
      simp [EStateM.bind, edit, answer, Except.map]
    rw [answered]
    exact rest a answer c

theorem replace {target replacement : NodeId} (steady : p.Steady) (free : p.Free target)
    (allocated : p.tree.Allocated replacement) :
    Steadily p (SimplifyM.replace target replacement) any := by
  intro c
  simp only [SimplifyM.replace, edit]
  cases done : p.replace target replacement with
  | error e => exact ⟨steady, trivial⟩
  | ok result =>
    obtain ⟨after, leads⟩ := steady.replace allocated free.notBinding free.notDeclaring done
    exact ⟨after, leads, trivial⟩

theorem discardReplace {target replacement : NodeId} (steady : p.Steady) (free : p.Free target)
    (allocated : p.tree.Allocated replacement) :
    Steadily p (discard (SimplifyM.replace target replacement)) any :=
  bind (replace steady free allocated) fun _ _ steady _ _ => pure steady trivial

theorem remove {target : NodeId} (steady : p.Steady) :
    Steadily p (SimplifyM.remove target) fun _ q => ∀ id, p.tree.IsTop id → q.tree.IsTop id := by
  intro c
  simp only [SimplifyM.remove, edit]
  cases done : p.remove target with
  | error e => exact ⟨steady, trivial⟩
  | ok result =>
    obtain ⟨after, leads, still⟩ := steady.remove done
    exact ⟨after, leads, still⟩

theorem replaceAndRecord {kind : EventKind} {label : String} {target replacement : NodeId}
    (steady : p.Steady) (free : p.Free target) (allocated : p.tree.Allocated replacement) :
    Steadily p (SimplifyM.replaceAndRecord kind label target replacement) any := by
  refine snippet fun _ => bind (replace steady free allocated) fun _ q steady _ _ => ?_
  exact snippet fun _ => mono (record kind _ _ steady) fun _ _ _ => trivial

/-- A piece that has just been built takes the place of a node. -/
theorem exchange {action : StateM Tree NodeId} {put : NodeId → SimplifyM β} {target : NodeId}
    (steady : p.Steady) (makes : Tree.Makes [] Tree.piece action) (free : p.Free target)
    (puts : ∀ replacement q, q.Steady → q.Free target → q.tree.Allocated replacement →
      Runs fails q (put replacement) post') :
    Runs fails p (SimplifyM.build action >>= put) post' := by
  refine bind (build steady makes) fun piece q after leads made => ?_
  obtain ⟨grown, rfl, building⟩ := made
  exact puts piece _ after (free.leads leads)
    (building.loose piece (List.mem_singleton_self _)).allocated

/-! ### Loops -/

theorem bindAny (first : Runs fails p action any)
    (second : ∀ a q, q.Steady → p.Leads q → Runs fails q (next a) post') :
    Runs fails p (action >>= next) post' :=
  bind first fun a q steady leads _ => second a q steady leads

theorem foldlM_met {σ ι : Type} {step : σ → ι → SimplifyM σ} (done : List ι)
    (kept : List ι → σ → Program → Prop) {items : List ι} {start : σ} (steady : p.Steady)
    (holds : kept done start p)
    (each : ∀ before item behind, done ++ items = before ++ item :: behind → ∀ state q, q.Steady →
      p.Leads q → kept before state q → Runs fails q (step state item) (kept (before ++ [item]))) :
    Runs fails p (items.foldlM step start) (kept (done ++ items)) := by
  induction items generalizing p done start with
  | nil =>
    rw [List.append_nil]
    exact pure steady holds
  | cons head rest induction =>
    rw [List.foldlM_cons]
    refine bind (each done head rest rfl start p steady (.refl p) holds)
      fun state q steady leads holds => ?_
    rw [List.append_cons] at each ⊢
    exact induction _ steady holds fun before item behind split state r steady further =>
      each before item behind split state r steady (leads.trans further)

theorem foldlM {σ ι : Type} {step : σ → ι → SimplifyM σ} {kept : σ → Program → Prop}
    {items : List ι} {start : σ} (steady : p.Steady) (holds : kept start p)
    (each : ∀ item ∈ items, ∀ state q, q.Steady → p.Leads q → kept state q →
      Runs fails q (step state item) kept) :
    Runs fails p (items.foldlM step start) kept := by
  refine foldlM_met [] (fun _ => kept) steady holds fun before item behind split => ?_
  exact each item (by rw [← List.nil_append items, split]; simp)

theorem anyChange {ι : Type} {step : ι → SimplifyM Bool} {items : List ι} (steady : p.Steady)
    (each : ∀ item ∈ items, ∀ q, q.Steady → p.Leads q → Runs fails q (step item) any) :
    Runs fails p (SimplifyM.anyChange items step) any := by
  refine foldlM steady trivial fun item member changed q steady leads _ => ?_
  exact bind (each item member q steady leads) fun _ _ steady _ _ => pure steady trivial

theorem ifAttached {id : NodeId} {step : SimplifyM Bool} (steady : p.Steady)
    (steps : p.isAttached id = true → Runs fails p step any) :
    Runs fails p (SimplifyM.ifAttached id step) any := by
  refine program ?_
  split
  · rename_i attached
    exact steps attached
  · exact pure steady trivial

theorem nodesWhere {test : Program → NodeId → Bool} {next : List NodeId → SimplifyM β}
    (rest : ∀ ids, (∀ id ∈ ids, test p id = true) → Runs fails p (next ids) post') :
    Runs fails p (SimplifyM.nodesWhere test >>= next) post' :=
  fun c => rest _ (fun _ member => (List.mem_filter.mp member).2) c

theorem visit {test : Program → NodeId → Bool} {step : NodeId → SimplifyM Bool} (steady : p.Steady)
    (steps : ∀ id q, q.Steady → p.Leads q → test p id = true → Runs fails q (step id) any) :
    Runs fails p (SimplifyM.visit test step) any := by
  refine nodesWhere fun ids passed => anyChange steady fun id member q steady leads => ?_
  exact ifAttached steady fun _ => steps id q steady leads (passed id member)

/-- What a loop keeps may depend on the items that are still to come. -/
theorem forIn_rest {ι : Type} {items : List ι} {body : ι → PUnit → SimplifyM (ForInStep PUnit)}
    (inv : List ι → Program → Prop) (steady : p.Steady) (holds : inv items p)
    (each : ∀ item rest q, item ∈ items → q.Steady → p.Leads q → inv (item :: rest) q →
      Runs fails q (body item .unit) (goesOn (inv rest))) :
    Runs fails p (forIn items PUnit.unit body) fun _ q => inv [] q := by
  induction items generalizing p with
  | nil =>
    rw [List.forIn_nil]
    exact pure steady holds
  | cons head rest induction =>
    rw [List.forIn_cons]
    refine bind (each head rest p (List.mem_cons_self ..) steady (.refl p) holds)
      fun yielded q steady leads holds => ?_
    obtain ⟨rfl, holds⟩ := holds
    exact induction steady holds fun item rest r member steady further =>
      each item rest r (List.mem_cons_of_mem _ member) steady (leads.trans further)

theorem forIn {ι : Type} {items : List ι} {body : ι → PUnit → SimplifyM (ForInStep PUnit)}
    (inv : Program → Prop) (steady : p.Steady) (holds : inv p)
    (each : ∀ item ∈ items, ∀ q, q.Steady → p.Leads q → inv q →
      Runs fails q (body item .unit) (goesOn inv)) :
    Runs fails p (forIn items PUnit.unit body) fun _ q => inv q :=
  forIn_rest (fun _ => inv) steady holds fun item _ q member => each item member q

end Runs

end SimplifyM

end Unravel
