import Unravel.Proofs.Scope.Resolution
import Unravel.Program.Basic

/-!
When a program verifies. Edits keep the table of a program such that it describes the lexicon of
its tree but for some declarations it does not know of (`Program.Keeps`); verification succeeds
exactly when there are none of these.
-/

namespace Unravel

namespace Lexicon

/-- The lexicon with only the declarations of some identifiers. -/
def knowing (l : Lexicon) (known : NodeId → Bool) : Lexicon :=
  { l with declared := l.declared.filter fun d => known d.identifier }

variable {l : Lexicon} {known : NodeId → Bool} {d : Declaration}

theorem Regular.knowing (regular : l.Regular) (known : NodeId → Bool) : (l.knowing known).Regular :=
  regular.of_sublist List.filter_sublist

theorem knowing_eq_self (all : ∀ d ∈ l.declared, known d.identifier = true) :
    l.knowing known = l := by
  simp only [Lexicon.knowing, List.filter_eq_self.mpr all]

/-- A declaration that is not known leaves its identifier without meaning. -/
theorem Regular.meaning?_knowing (regular : l.Regular) (member : d ∈ l.declared)
    (unknown : known d.identifier = false) : (l.knowing known).meaning? d.identifier = none := by
  have uses : (l.knowing known).uses d.identifier = none := regular.unused d member
  have absent : (l.knowing known).declarationOf? d.identifier = none := by
    rw [declarationOf?_eq_none]
    intro e isKnown same
    rw [Lexicon.knowing, List.mem_filter, same, unknown] at isKnown
    cases isKnown.2
  simp only [meaning?, uses, absent, Option.bind_none]

end Lexicon

namespace Program

/-- The root of a program is a program node at the top of a tree. -/
structure Rooted (p : Program) : Prop where
  linked : p.tree.Linked
  isTop : p.tree.IsTop p.root
  isProgram : ∃ body, p.node p.root = .program body

/-- The table of a program is kept, but for the declarations of some identifiers. -/
structure Keeps (p : Program) (known : NodeId → Bool) : Prop extends p.Rooted where
  describes : p.scopes.Describes ((p.tree.lexicon p.root).knowing known)
  fresh : p.stale = false

/-- The table of a program is kept. -/
def Sound (p : Program) : Prop := p.Keeps fun _ => true

variable {p : Program} {known : NodeId → Bool}

theorem Rooted.regular (rooted : p.Rooted) : (p.tree.lexicon p.root).Regular :=
  rooted.linked.regular rooted.isTop

theorem Keeps.sound (keeps : p.Keeps known)
    (all : ∀ d ∈ (p.tree.lexicon p.root).declared, known d.identifier = true) : p.Sound := by
  have describes := keeps.describes
  rw [Lexicon.knowing_eq_self all] at describes
  refine ⟨keeps.toRooted, ?_, keeps.fresh⟩
  rwa [Lexicon.knowing_eq_self fun _ _ => rfl]

theorem Sound.rooted (sound : p.Sound) : p.Rooted := Keeps.toRooted sound

theorem Sound.describes (sound : p.Sound) : p.scopes.Describes (p.tree.lexicon p.root) := by
  have describes := Keeps.describes sound
  rwa [Lexicon.knowing_eq_self fun _ _ => rfl] at describes

/-! ### Making a table anew -/

theorem Rooted.exists_ofTree (rooted : p.Rooted) :
    ∃ fresh, Scopes.ofTree p.tree p.root = .ok fresh ∧
      fresh.Describes (p.tree.lexicon p.root) := by
  obtain ⟨body, shape⟩ := rooted.isProgram
  have opens : p.tree.scopeKind? p.root = some .program := by
    rw [Program.node] at shape
    simp [Tree.scopeKind?, shape]
  have made : ∃ fresh, Scopes.ofTree p.tree p.root = .ok fresh := by
    rw [Scopes.ofTree, opens]
    exact ⟨_, rfl⟩
  obtain ⟨fresh, made⟩ := made
  exact ⟨fresh, made, Scopes.describes_ofTree rooted.linked rooted.isTop made⟩

/-- A table made anew is kept. -/
theorem Rooted.rescope (rooted : p.Rooted) :
    ∃ r, p.rescope = .ok r ∧ r.tree = p.tree ∧ r.root = p.root ∧ r.Sound := by
  obtain ⟨fresh, made, describes⟩ := rooted.exists_ofTree
  have result : p.rescope = .ok { p with scopes := fresh, stale := false } := by
    rw [Program.rescope, made]
    rfl
  refine ⟨_, result, rfl, rfl, ⟨rooted.linked, rooted.isTop, rooted.isProgram⟩, ?_, rfl⟩
  rwa [Lexicon.knowing_eq_self fun _ _ => rfl]

theorem sound_of_ofTree {t : Tree} {root : NodeId} (linked : t.Linked) (isTop : t.IsTop root)
    (made : ofTree t root = .ok p) : p.tree = t ∧ p.root = root ∧ p.Sound := by
  rw [ofTree] at made
  split at made
  · rename_i body shape
    have rooted : Program.Rooted ⟨t, root, default, false⟩ := ⟨linked, isTop, body, shape⟩
    obtain ⟨fresh, resolved, describes⟩ := rooted.exists_ofTree
    simp only [resolved] at made
    cases made
    refine ⟨rfl, rfl, ⟨linked, isTop, body, shape⟩, ?_, rfl⟩
    rwa [Lexicon.knowing_eq_self fun _ _ => rfl]
  · cases made

/-- The tree of a program node makes a program. -/
theorem exists_ofTree {t : Tree} {root : NodeId} {body : List NodeId} (linked : t.Linked)
    (isTop : t.IsTop root) (shape : t.node root = .program body) :
    ∃ scopes, ofTree t root = .ok ⟨t, root, scopes, false⟩ ∧
      Program.Sound ⟨t, root, scopes, false⟩ := by
  have rooted : Program.Rooted ⟨t, root, default, false⟩ := ⟨linked, isTop, body, shape⟩
  obtain ⟨scopes, resolved, -⟩ := rooted.exists_ofTree
  have made : ofTree t root = .ok ⟨t, root, scopes, false⟩ := by
    rw [ofTree]
    simp only [shape, resolved]
    rfl
  exact ⟨scopes, made, (sound_of_ofTree linked isTop made).2.2⟩

/-! ### Comparing sorted lists of handles -/

theorem sortedIds_eq_iff {a b : List NodeId} : sortedIds a = sortedIds b ↔ a.Perm b := by
  have sorted (ids : List NodeId) :
      (sortedIds ids).Pairwise fun a b => decide (a.index ≤ b.index) = true :=
    List.pairwise_mergeSort
      (fun a b c first second => by
        rw [decide_eq_true_eq] at *
        exact Nat.le_trans first second)
      (fun a b => by
        rw [Bool.or_eq_true, decide_eq_true_eq, decide_eq_true_eq]
        exact Nat.le_total _ _) ids
  constructor
  · intro same
    have first := List.mergeSort_perm a fun a b => a.index ≤ b.index
    have second := List.mergeSort_perm b fun a b => a.index ≤ b.index
    change (sortedIds a).Perm a at first
    change (sortedIds b).Perm b at second
    rw [same] at first
    exact first.symm.trans second
  · intro perm
    have whole : (sortedIds a).Perm (sortedIds b) :=
      (List.mergeSort_perm a _).trans (perm.trans (List.mergeSort_perm b _).symm)
    refine whole.eq_of_pairwise ?_ (sorted a) (sorted b)
    intro x y _ _ first second
    rw [decide_eq_true_eq] at first second
    have same := Nat.le_antisymm first second
    cases x
    cases y
    cases same
    rfl

/-! ### Verification -/

theorem forIn_eq_ok_iff {α ε : Type} {l : List α} {body : α → PUnit → Except ε (ForInStep PUnit)}
    {passes : α → Prop} (step : ∀ a, (passes a ∧ body a ⟨⟩ = .ok (.yield ⟨⟩)) ∨
      (¬passes a ∧ ∃ e, body a ⟨⟩ = .error e)) :
    forIn l PUnit.unit body = .ok ⟨⟩ ↔ ∀ a ∈ l, passes a := by
  induction l with
  | nil => simp [pure, Except.pure]
  | cons head tail induction =>
    rw [List.forIn_cons, List.forall_mem_cons]
    rcases step head with ⟨good, continues⟩ | ⟨bad, e, fails⟩
    · rw [continues, ← induction, and_iff_right good]
      rfl
    · simp [fails, bad, bind, Except.bind]

theorem bind_eq_ok_iff {α β ε : Type} {x : Except ε α} {f : α → Except ε β} {b : β} :
    x >>= f = .ok b ↔ ∃ a, x = .ok a ∧ f a = .ok b := by
  cases x <;> simp [bind, Except.bind]

theorem ite_throw_eq_ok_iff {α β ε : Type} {c : Prop} [Decidable c] {e : ε} {f : α → Except ε β}
    {x : Except ε β} {b : β} : (if c then throw e >>= f else x) = .ok b ↔ ¬c ∧ x = .ok b := by
  by_cases fails : c
  · rw [if_pos fails]
    simp [fails, throw, throwThe, MonadExceptOf.throw, bind, Except.bind]
  · rw [if_neg fails, and_iff_right fails]

theorem verify_eq_ok_iff : p.verify = .ok () ↔ ∃ fresh, Scopes.ofTree p.tree p.root = .ok fresh ∧
    (∀ expected ∈ fresh.live, p.discrepancy? expected = none) ∧
    ∀ maintained ∈ p.scopes.live, (fresh.bindingOf? maintained.identifier).isSome = true := by
  simp only [verify, bind_eq_ok_iff]
  refine exists_congr fun fresh => and_congr_right fun _ => ?_
  have unit {P : PUnit → Prop} : (∃ u, P u) ↔ P ⟨⟩ :=
    ⟨fun ⟨_, holds⟩ => holds, fun holds => ⟨_, holds⟩⟩
  have done : (pure PUnit.unit : Except Error PUnit) = .ok () := rfl
  rw [unit, unit, and_iff_left done]
  refine and_congr (forIn_eq_ok_iff fun expected => ?_) (forIn_eq_ok_iff fun maintained => ?_)
  · cases p.discrepancy? expected with
    | none => exact .inl ⟨rfl, rfl⟩
    | some discrepancy => exact .inr ⟨by simp, _, rfl⟩
  · cases known : fresh.bindingOf? maintained.identifier with
    | none => exact .inr ⟨by simp, _, rfl⟩
    | some binding => exact .inl ⟨rfl, rfl⟩

theorem discrepancy?_eq_none_iff {expected : Binding} : p.discrepancy? expected = none ↔
    ∃ id, p.bindingOf? expected.identifier = some id ∧ (p.binding id).retired = false ∧
      (p.binding id).identifier = expected.identifier ∧
      (p.binding id).references.Perm expected.references ∧
      (p.binding id).mutations.Perm expected.mutations := by
  rw [discrepancy?]
  cases p.bindingOf? expected.identifier with
  | none => simp
  | some id =>
    simp only [Option.map_some, Option.filter_some, Option.some.injEq, exists_eq_left']
    by_cases isIts : (p.binding id).retired = false ∧
      (p.binding id).identifier = expected.identifier
    · simp only [isIts.1, isIts.2, Bool.not_false, decide_true, Bool.and_self, if_true, true_and]
      rw [← sortedIds_eq_iff, ← sortedIds_eq_iff]
      split
      · rename_i different
        simp [different]
      · rename_i sameReferences
        rw [not_not] at sameReferences
        split
        · rename_i different
          simp [different]
        · rename_i sameMutations
          rw [not_not] at sameMutations
          simp [sameReferences, sameMutations]
    · rw [if_neg (by simpa using isIts)]
      simp only [reduceCtorEq, false_iff]
      rintro ⟨live, same, -⟩
      exact isIts ⟨live, same⟩

theorem mem_live {s : Scopes} {b : Binding} : b ∈ s.live ↔
    ∃ id : BindingId, id.index < s.bindings.size ∧ (s.binding id).retired = false ∧
      s.binding id = b := by
  simp only [Scopes.live, Scopes.liveIds, List.mem_map, List.mem_filter, List.mem_range]
  constructor
  · rintro ⟨id, ⟨⟨index, inside, rfl⟩, live⟩, rfl⟩
    exact ⟨_, inside, by simpa using live, rfl⟩
  · rintro ⟨id, inside, live, rfl⟩
    exact ⟨id, ⟨⟨id.index, inside, rfl⟩, by simpa using live⟩, rfl⟩

theorem exists_occurrence {s : Scopes} {l : Lexicon} {id : NodeId} {b : BindingId}
    (describes : s.Describes l) (belongs : s.bindingOf? id = some b) :
    ∃ d, l.meaning? id = some d ∧ s.find? d.owner d.name = some b := by
  rw [Scopes.bindingOf?, describes.occurrences, Option.bind_eq_some_iff] at belongs
  exact belongs

theorem bindingOf?_of_found {s : Scopes} {l : Lexicon} {d : Declaration} {b : BindingId}
    (describes : s.Describes l) (regular : l.Regular) (bound : l.binder? d.owner d.name = some d)
    (found : s.find? d.owner d.name = some b) : s.bindingOf? d.identifier = some b := by
  rw [Scopes.bindingOf?, describes.occurrences,
    regular.meaning?_of_declared (Lexicon.binder?_some bound).1, bound, Option.bind_some, found]

theorem exists_same_binding {s fresh : Scopes} {l : Lexicon} (describes : s.Describes l)
    (describesFresh : fresh.Describes l) (regular : l.Regular) {expected : Binding}
    (live : expected ∈ fresh.live) :
    ∃ id, s.bindingOf? expected.identifier = some id ∧ (s.binding id).retired = false ∧
      (s.binding id).identifier = expected.identifier ∧
      (s.binding id).references.Perm expected.references ∧
      (s.binding id).mutations.Perm expected.mutations := by
  obtain ⟨freshId, inside, isLive, rfl⟩ := mem_live.mp live
  obtain ⟨owner, name, freshFound⟩ := describesFresh.live freshId inside isLive
  obtain ⟨d, bound, freshStands⟩ := describesFresh.stands freshFound
  obtain ⟨-, rfl, rfl⟩ := Lexicon.binder?_some bound
  obtain ⟨id, found, stands⟩ := describes.found _ _ d bound
  obtain ⟨references, isReference⟩ := describes.references d id bound found
  obtain ⟨mutations, isMutation⟩ := describes.mutations d id bound found
  obtain ⟨freshReferences, isFreshReference⟩ := describesFresh.references d freshId bound freshFound
  obtain ⟨freshMutations, isFreshMutation⟩ := describesFresh.mutations d freshId bound freshFound
  refine ⟨id, ?_, stands.live, stands.identifier.trans freshStands.identifier.symm, ?_, ?_⟩
  · rw [freshStands.identifier]
    exact bindingOf?_of_found describes regular bound found
  · rw [List.perm_ext_iff_of_nodup references freshReferences]
    exact fun use => (isReference use).trans (isFreshReference use).symm
  · rw [List.perm_ext_iff_of_nodup mutations freshMutations]
    exact fun use => (isMutation use).trans (isFreshMutation use).symm

theorem Keeps.verify_iff (keeps : p.Keeps known) :
    p.verify = .ok () ↔ ∀ d ∈ (p.tree.lexicon p.root).declared, known d.identifier = true := by
  obtain ⟨fresh, made, describesFresh⟩ := keeps.exists_ofTree
  have regular := keeps.toRooted.regular
  rw [verify_eq_ok_iff]
  simp only [made, Except.ok.injEq, exists_eq_left']
  constructor
  · rintro ⟨agrees, -⟩ d member
    by_contra unknown
    rw [Bool.not_eq_true] at unknown
    have meansNothing := regular.meaning?_knowing member unknown
    obtain ⟨first, bound⟩ := Lexicon.exists_binder? member
    have firstMember := (Lexicon.binder?_some bound).1
    obtain ⟨freshId, found, stands⟩ := describesFresh.found _ _ first bound
    have same := discrepancy?_eq_none_iff.mp
      (agrees _ (mem_live.mpr ⟨freshId, stands.index, stands.live, rfl⟩))
    rw [stands.identifier] at same
    obtain ⟨id, belongs, -, -, -, mutations⟩ := same
    obtain ⟨e, means, maintained⟩ := exists_occurrence keeps.describes belongs
    cases knowsFirst : known first.identifier with
    | false =>
      rw [regular.meaning?_knowing firstMember knowsFirst] at means
      cases means
    | true =>
      -- The unknown declaration writes the binding of the first one, but belongs to nothing.
      have different : d ≠ first := by
        rintro rfl
        rw [unknown] at knowsFirst
        cases knowsFirst
      have writes : (p.tree.lexicon p.root).Writes first d.identifier :=
        .inr ⟨d, member, rfl, different, bound⟩
      have freshMutation := (describesFresh.mutations first freshId (Lexicon.binder?_self bound)
        (by rwa [(Lexicon.binder?_some bound).2.1, (Lexicon.binder?_some bound).2.2])).2
        d.identifier
      have mutation := (keeps.describes.mutations e id (Lexicon.meaning?_some means) maintained).2
        d.identifier
      have written := mutation.mp (mutations.mem_iff.mpr (freshMutation.mpr writes))
      rw [(regular.knowing known).meaning?_of_writes written] at meansNothing
      cases meansNothing
  · intro all
    have describes := (keeps.sound all).describes
    refine ⟨fun expected live => ?_, fun maintained live => ?_⟩
    · exact discrepancy?_eq_none_iff.mpr (exists_same_binding describes describesFresh regular live)
    · obtain ⟨id, belongs, -⟩ := exists_same_binding describesFresh describes regular live
      rw [belongs, Option.isSome_some]

end Program

end Unravel
