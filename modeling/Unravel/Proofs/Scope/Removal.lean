import Unravel.Proofs.Scope.Table

/-!
Taking nodes out of a table. First their scopes and identifiers are forgotten (`Scopes.Forgot`),
then the bindings that they declared are retired (`Scopes.Released`), which is done only to
bindings that no identifier refers to any more.

Main statement: what is left describes what is left of the lexicon (`Scopes.Describes.remove`).
-/

namespace Unravel

namespace Lexicon

/-- Nodes that can stay without the rest: with a declaration or a scope stays what is around it,
and with a use everything in its sight. -/
structure Closed (l : Lexicon) (keep : NodeId → Bool) : Prop where
  owner : ∀ d ∈ l.declared, keep d.identifier = true → keep d.owner = true
  outer : ∀ id kind outer, l.scopes id = some (kind, outer) → keep id = true →
    ∀ above ∈ outer, keep above = true

def Released (l : Lexicon) (keep : NodeId → Bool) : Prop :=
  ∀ id d, l.meaning? id = some d → keep id = true → keep d.identifier = true

variable {l : Lexicon} {keep : NodeId → Bool} {owner id : NodeId} {name : String} {d : Declaration}

theorem find?_filter_of_find? {α : Type} {l : List α} {p q : α → Bool} {a : α}
    (found : l.find? p = some a) (kept : q a = true) : (l.filter q).find? p = some a := by
  induction l with
  | nil => cases found
  | cons head tail induction =>
    rw [List.find?_cons] at found
    split at found
    · rename_i isFirst
      rw [Option.some.injEq] at found
      subst found
      rw [List.filter_cons_of_pos kept, List.find?_cons_of_pos isFirst]
    · rename_i notFirst
      rw [List.filter_cons]
      split
      · rw [List.find?_cons_of_neg (by simp [notFirst]), induction found]
      · exact induction found

theorem Regular.restrict (regular : l.Regular) (closed : l.Closed keep) :
    (l.restrict keep).Regular where
  distinct := regular.distinct.sublist (List.filter_sublist.map _)
  unused d member := by
    rw [Lexicon.restrict, List.mem_filter] at member
    simp [Lexicon.restrict, regular.unused d member.1]
  owner d member := by
    rw [Lexicon.restrict, List.mem_filter] at member
    simp [Lexicon.restrict, closed.owner d member.1 member.2, regular.owner d member.1]
  isUse id use found := by
    simp only [Lexicon.restrict, Option.ite_none_right_eq_some] at found
    exact regular.isUse id use found.2
  around id kind outer rest found := by
    simp only [Lexicon.restrict, Option.ite_none_right_eq_some] at found
    obtain ⟨outerKind, scope⟩ := regular.around id kind outer rest found.2
    have kept := closed.outer id kind (outer :: rest) found.2 found.1 outer (List.mem_cons_self ..)
    exact ⟨outerKind, by simp [Lexicon.restrict, kept, scope]⟩
  nodup id kind outer found := by
    simp only [Lexicon.restrict, Option.ite_none_right_eq_some] at found
    exact regular.nodup id kind outer found.2

theorem binder?_restrict_eq_none (unbound : l.binder? owner name = none) :
    (l.restrict keep).binder? owner name = none := by
  rw [binder?_eq_none] at unbound ⊢
  exact fun d member => unbound d (List.mem_filter.mp member).1

theorem look?_restrict {places : List NodeId}
    (kept : ∀ d, l.look? places name = some d → keep d.identifier = true) :
    (l.restrict keep).look? places name = l.look? places name := by
  induction places with
  | nil => rfl
  | cons place rest induction =>
    rw [look?, look?, List.findSome?_cons, List.findSome?_cons]
    rw [look?, List.findSome?_cons] at kept
    cases bound : l.binder? place name with
    | none =>
      rw [bound] at kept
      rw [binder?_restrict_eq_none bound]
      exact induction kept
    | some d =>
      rw [bound] at kept
      rw [show (l.restrict keep).binder? place name = some d from
        find?_filter_of_find? bound (kept d rfl)]

theorem meaning?_restrict_of_stays (stays : keep id = true)
    (kept : ∀ d, l.meaning? id = some d → keep d.identifier = true) :
    (l.restrict keep).meaning? id = l.meaning? id := by
  have uses : (l.restrict keep).uses id = l.uses id := by simp [Lexicon.restrict, stays]
  rw [meaning?, meaning?, uses]
  cases isUse : l.uses id with
  | some use => exact look?_restrict fun d means => kept d (by simp only [meaning?, isUse, means])
  | none =>
    cases declares : l.declarationOf? id with
    | none =>
      have absent : (l.restrict keep).declarationOf? id = none := by
        rw [declarationOf?_eq_none] at declares ⊢
        exact fun d member => declares d (List.mem_filter.mp member).1
      simp only [absent, Option.bind_none]
    | some d =>
      obtain ⟨member, same⟩ := declarationOf?_some declares
      have still : (l.restrict keep).declarationOf? id = some d :=
        find?_filter_of_find? declares (by rw [same, stays])
      obtain ⟨first, bound⟩ := exists_binder? member
      have means : l.meaning? id = some first := by
        simp only [meaning?, isUse, declares, Option.bind_some, bound]
      simp only [still, Option.bind_some, bound]
      exact find?_filter_of_find? bound (kept first means)

section Restrict

variable (regular : l.Regular) (released : l.Released keep)

include regular released

theorem binder?_restrict : (l.restrict keep).binder? owner name =
    (l.binder? owner name).filter fun d => keep d.identifier := by
  cases bound : l.binder? owner name with
  | none =>
    rw [Option.filter_none, binder?_restrict_eq_none bound]
  | some d =>
    rw [Option.filter_some]
    split
    · rename_i kept
      exact find?_filter_of_find? bound kept
    · rename_i leaves
      rw [binder?_eq_none]
      rintro e member rfl rfl
      rw [Lexicon.restrict, List.mem_filter] at member
      have means : l.meaning? e.identifier = some d := by
        rw [regular.meaning?_of_declared member.1, bound]
      exact leaves (released e.identifier d means member.2)

omit regular in
theorem meaning?_restrict :
    (l.restrict keep).meaning? id = if keep id then l.meaning? id else none := by
  split
  · rename_i stays
    exact meaning?_restrict_of_stays stays fun d means => released id d means stays
  · rename_i leaves
    have uses : (l.restrict keep).uses id = none := by simp [Lexicon.restrict, leaves]
    have absent : (l.restrict keep).declarationOf? id = none := by
      rw [declarationOf?_eq_none]
      rintro d member rfl
      exact leaves (List.mem_filter.mp member).2
    simp only [meaning?, uses, absent, Option.bind_none]

omit regular in
theorem reads_restrict : (l.restrict keep).Reads d id ↔ l.Reads d id ∧ keep id = true := by
  constructor
  · rintro ⟨use, isUse, reads, means⟩
    simp only [Lexicon.restrict, Option.ite_none_right_eq_some] at isUse
    have kept : ∀ d, l.look? use.sight use.name = some d → keep d.identifier = true :=
      fun d means =>
        released id d (by simp only [meaning?, isUse.2, means]) isUse.1
    rw [look?_restrict kept] at means
    exact ⟨⟨use, isUse.2, reads, means⟩, isUse.1⟩
  · rintro ⟨⟨use, isUse, reads, means⟩, stays⟩
    refine ⟨use, by simp [Lexicon.restrict, stays, isUse], reads, ?_⟩
    rw [look?_restrict, means]
    exact fun d means => released id d (by simp only [meaning?, isUse, means]) stays

theorem writes_restrict (kept : keep d.identifier = true) :
    (l.restrict keep).Writes d id ↔ l.Writes d id ∧ keep id = true := by
  constructor
  · rintro (⟨use, isUse, writes, means⟩ | ⟨e, member, rfl, different, bound⟩)
    · simp only [Lexicon.restrict, Option.ite_none_right_eq_some] at isUse
      have kept : ∀ d, l.look? use.sight use.name = some d → keep d.identifier = true :=
        fun d means =>
          released id d (by simp only [meaning?, isUse.2, means]) isUse.1
      rw [look?_restrict kept] at means
      exact ⟨.inl ⟨use, isUse.2, writes, means⟩, isUse.1⟩
    · obtain ⟨declared, stays⟩ := List.mem_filter.mp member
      rw [binder?_restrict regular released, Option.filter_eq_some_iff] at bound
      exact ⟨.inr ⟨e, declared, rfl, different, bound.1⟩, stays⟩
  · rintro ⟨⟨use, isUse, writes, means⟩ | ⟨e, member, rfl, different, bound⟩, stays⟩
    · refine .inl ⟨use, by simp [Lexicon.restrict, stays, isUse], writes, ?_⟩
      rw [look?_restrict, means]
      exact fun d means => released id d (by simp only [meaning?, isUse, means]) stays
    · refine .inr ⟨e, List.mem_filter.mpr ⟨member, stays⟩, rfl, different, ?_⟩
      rw [binder?_restrict regular released, bound, Option.filter_some, if_pos kept]

end Restrict

end Lexicon

namespace Scopes

variable {s s' after : Scopes} {l : Lexicon} {t : Tree} {keep : NodeId → Bool} {gone : List NodeId}
  {retired : List BindingId}

/-- A table without the scopes and identifiers of some nodes. -/
structure Forgot (t : Tree) (s s' : Scopes) (gone : List NodeId) : Prop where
  scopes : s'.scopes = s.scopes
  size : s'.bindings.size = s.bindings.size
  owned : ∀ id, s'.owned[id]? = if id ∈ gone ∧ t.opens id then none else s.owned[id]?
  occurrences : ∀ id, s'.occurrences[id]? =
    if id ∈ gone ∧ (t.node id).isIdentifier then none else s.occurrences[id]?
  core : ∀ id, core (s'.binding id) = core (s.binding id)
  references : ∀ id : BindingId, id.index < s.bindings.size → (s.binding id).retired = false →
    (s'.binding id).references = (s.binding id).references.filter (· ∉ gone)
  mutations : ∀ id : BindingId, id.index < s.bindings.size → (s.binding id).retired = false →
    (s'.binding id).mutations = (s.binding id).mutations.filter (· ∉ gone)

structure Retired (s s' : Scopes) (retired : List BindingId) : Prop where
  size : s'.bindings.size = s.bindings.size
  scopesSize : s'.scopes.size = s.scopes.size
  owned : s'.owned = s.owned
  occurrences : s'.occurrences = s.occurrences
  entry : ∀ id, (s'.scope id).kind = (s.scope id).kind ∧ (s'.scope id).node = (s.scope id).node ∧
    (s'.scope id).outer = (s.scope id).outer
  names : ∀ id name, (s'.scope id).names[name]? = (s.scope id).names[name]?.filter fun binding =>
    !(decide (binding ∈ retired) && decide ((s.binding binding).scope = id)
      && decide ((s.binding binding).name = name))
  binding : ∀ id, s'.binding id =
    { s.binding id with retired := (s.binding id).retired || decide (id ∈ retired) }

def IsDeclaredIn (s : Scopes) (gone : List NodeId) (id : BindingId) : Prop :=
  (s.binding id).identifier ∈ gone ∧ s.occurrences[(s.binding id).identifier]? = some id

theorem Describes.occurrence_of_binder (describes : s.Describes l) (regular : l.Regular)
    {owner : NodeId} {name : String} {d : Declaration} {id : BindingId}
    (bound : l.binder? owner name = some d) (found : s.find? owner name = some id) :
    s.occurrences[d.identifier]? = some id := by
  obtain ⟨member, rfl, rfl⟩ := Lexicon.binder?_some bound
  rw [describes.occurrences, regular.meaning?_of_declared member, bound, Option.bind_some, found]

/-- What has to hold for some nodes to be taken out of a table with nothing left that refers to
them. -/
structure Removes (t : Tree) (s s' after : Scopes) (gone : List NodeId) (retired : List BindingId) :
    Prop where
  forgot : Forgot t s s' gone
  retires : Retired s' after retired
  declared : ∀ id : BindingId, id.index < s.bindings.size → (s.binding id).retired = false →
    (id ∈ retired ↔ s.IsDeclaredIn gone id)
  free : ∀ id ∈ retired, (s'.binding id).references = [] ∧ (s'.binding id).mutations = []

section Remove

variable (describes : s.Describes l) (regular : l.Regular)
  (removes : Removes t s s' after gone retired) (keeps : ∀ id, keep id = true ↔ id ∉ gone)

include describes regular removes keeps

theorem Removes.mem_retired {owner : NodeId} {name : String} {d : Declaration} {id : BindingId}
    (bound : l.binder? owner name = some d) (found : s.find? owner name = some id) :
    id ∈ retired ↔ keep d.identifier = false := by
  obtain ⟨other, alsoBound, stands⟩ := describes.stands found
  rw [bound, Option.some.injEq] at alsoBound
  subst alsoBound
  rw [removes.declared id stands.index stands.live, IsDeclaredIn, stands.identifier,
    describes.occurrence_of_binder regular bound found, and_iff_left rfl, ← Bool.not_eq_true, keeps,
    not_not]

theorem Removes.released : l.Released keep := by
  intro id d means stays
  by_contra leaves
  rw [Bool.not_eq_true] at leaves
  have bound := Lexicon.meaning?_some means
  obtain ⟨binding, found, stands⟩ := describes.found _ _ _ bound
  have isRetired := (removes.mem_retired describes regular keeps bound found).mpr leaves
  obtain ⟨noReferences, noMutations⟩ := removes.free binding isRetired
  rw [removes.forgot.references binding stands.index stands.live, List.filter_eq_nil_iff]
    at noReferences
  rw [removes.forgot.mutations binding stands.index stands.live, List.filter_eq_nil_iff]
    at noMutations
  have isKept : id ∉ gone := (keeps id).mp stays
  have different : id ≠ d.identifier := by
    rintro rfl
    rw [stays] at leaves
    cases leaves
  rcases regular.reads_or_writes means different with reads | writes
  · have member := ((describes.references d binding bound found).2 id).mpr reads
    exact noReferences id member (by simpa using isKept)
  · have member := ((describes.mutations d binding bound found).2 id).mpr writes
    exact noMutations id member (by simpa using isKept)

theorem Describes.remove (closed : l.Closed keep)
    (opens : ∀ id, (l.scopes id).isSome = true → t.opens id = true)
    (identifiers : ∀ id d, l.meaning? id = some d → (t.node id).isIdentifier = true) :
    after.Describes (l.restrict keep) := by
  have released := removes.released describes regular keeps
  have forgot := removes.forgot
  have retires := removes.retires
  have owned (id : NodeId) : after.owned[id]? =
      if keep id then s.owned[id]? else none := by
    rw [retires.owned, forgot.owned]
    by_cases stays : keep id = true
    · have kept := (keeps id).mp stays
      simp [stays, kept]
    · rw [if_neg stays]
      rw [keeps, not_not] at stays
      split
      · rfl
      · rename_i closedScope
        have notOpen : ¬t.opens id = true := fun isOpen => closedScope ⟨stays, isOpen⟩
        rw [← Option.not_isSome_iff_eq_none, describes.owned_isSome]
        exact fun isOpen => notOpen (opens id isOpen)
  have find (owner : NodeId) (name : String) : after.find? owner name =
      if keep owner then (s.find? owner name).filter (· ∉ retired) else none := by
    rw [find?, owned]
    split
    · rename_i ownerStays
      rw [find?]
      cases isOwned : s.owned[owner]? with
      | none => rfl
      | some scope =>
        rw [Option.bind_some, Option.bind_some, retires.names, Scopes.scope, forgot.scopes,
          ← Scopes.scope]
        cases named : (s.scope scope).names[name]? with
        | none => rfl
        | some binding =>
          have found : s.find? owner name = some binding := by
            rw [find?, isOwned, Option.bind_some, named]
          obtain ⟨d, bound, stands⟩ := describes.stands found
          obtain ⟨-, rfl, rfl⟩ := Lexicon.binder?_some bound
          have same := forgot.core binding
          simp only [core, Binding.mk.injEq] at same
          have sameScope : (s.binding binding).scope = scope := by
            have isScope := stands.scope
            rw [isOwned, Option.some.injEq] at isScope
            exact isScope.symm
          rw [Option.filter_some, Option.filter_some, same.1, same.2.2.2.2.1,
            stands.name, sameScope]
          simp
    · rfl
  have findKept {owner : NodeId} {name : String} {d : Declaration}
      (bound : l.binder? owner name = some d) (stays : keep d.identifier = true) :
      after.find? owner name = s.find? owner name := by
    obtain ⟨member, rfl, rfl⟩ := Lexicon.binder?_some bound
    obtain ⟨binding, found, -⟩ := describes.found _ _ _ bound
    have notRetired : binding ∉ retired := by
      rw [removes.mem_retired describes regular keeps bound found, stays]
      exact Bool.noConfusion
    rw [find, if_pos (closed.owner d member stays), found, Option.filter_some,
      if_pos (by simpa using notRetired)]
  have core (id : BindingId) (live : id ∉ retired) :
      core (after.binding id) = core (s.binding id) := by
    rw [← forgot.core, retires.binding, Scopes.core, Scopes.core]
    simp [live]
  have size : after.bindings.size = s.bindings.size := retires.size.trans forgot.size
  -- What is found afterwards was found before, and its declaration stays.
  have foundBefore {owner : NodeId} {name : String} {id : BindingId}
      (found : after.find? owner name = some id) : s.find? owner name = some id ∧ id ∉ retired := by
    rw [find, Option.ite_none_right_eq_some, Option.filter_eq_some_iff] at found
    exact ⟨found.2.1, by simpa using found.2.2⟩
  have stays {owner : NodeId} {name : String} {id : BindingId} {d : Declaration}
      (found : after.find? owner name = some id) (bound : l.binder? owner name = some d) :
      keep d.identifier = true := by
    obtain ⟨before, notRetired⟩ := foundBefore found
    rw [removes.mem_retired describes regular keeps bound before, Bool.not_eq_false] at notRetired
    exact notRetired
  have binder {owner : NodeId} {name : String} {d : Declaration} :
      (l.restrict keep).binder? owner name = some d ↔
        l.binder? owner name = some d ∧ keep d.identifier = true := by
    rw [Lexicon.binder?_restrict regular released, Option.filter_eq_some_iff]
  refine ⟨fun node id isOwned => ?_, fun node isOpen => ?_, fun owner name d bound => ?_,
    fun owner name id found => ?_, fun id inside live => ?_, fun id => ?_,
    fun d id bound found => ?_, fun d id bound found => ?_⟩
  · rw [owned, Option.ite_none_right_eq_some] at isOwned
    obtain ⟨nodeStays, wasOwned⟩ := isOwned
    obtain ⟨kind, outer, scope, represents⟩ := describes.scope node id wasOwned
    obtain ⟨sameKind, sameNode, sameOuter⟩ := retires.entry id
    have before : s'.scope id = s.scope id := by rw [Scopes.scope, forgot.scopes, Scopes.scope]
    refine ⟨kind, outer, by simp [Lexicon.restrict, nodeStays, scope], ?_, ?_, ?_, ?_⟩
    · rw [retires.scopesSize, forgot.scopes]
      exact represents.index
    · rw [sameKind, before, represents.kind]
    · rw [sameNode, before, represents.node]
    · rw [sameOuter, before, represents.outer]
      cases outer with
      | nil => rfl
      | cons above rest =>
        have aboveStays := closed.outer node kind (above :: rest) scope nodeStays above
          (List.mem_cons_self ..)
        rw [List.head?_cons, Option.bind_some, Option.bind_some, owned, if_pos aboveStays]
  · have both : keep node = true ∧ (l.scopes node).isSome = true := by
      simp only [Lexicon.restrict] at isOpen
      split at isOpen
      · rename_i nodeStays
        exact ⟨nodeStays, isOpen⟩
      · cases isOpen
    rw [owned, if_pos both.1]
    exact describes.owned node both.2
  · obtain ⟨before, identifierStays⟩ := binder.mp bound
    obtain ⟨id, found, stands⟩ := describes.found owner name d before
    have notRetired : id ∉ retired := by
      rw [removes.mem_retired describes regular keeps before found, identifierStays]
      exact Bool.noConfusion
    refine ⟨id, by rw [findKept before identifierStays, found], ?_⟩
    refine stands.transfer (by rw [size]; exact stands.index) (core id notRetired) ?_
    rw [owned, if_pos (closed.owner d (Lexicon.binder?_some before).1 identifierStays)]
  · obtain ⟨before, -⟩ := foundBefore found
    obtain ⟨d, bound⟩ := describes.bound owner name id before
    exact ⟨d, binder.mpr ⟨bound, stays found bound⟩⟩
  · rw [size] at inside
    rw [retires.binding, Bool.or_eq_false_iff, decide_eq_false_iff_not] at live
    have liveBefore : (s.binding id).retired = false := by
      have same := congrArg Binding.retired (forgot.core id)
      simp only [Scopes.core] at same
      rw [← same, live.1]
    obtain ⟨owner, name, found⟩ := describes.live id inside liveBefore
    obtain ⟨d, bound⟩ := describes.bound owner name id found
    have identifierStays : keep d.identifier = true := by
      rw [← Bool.not_eq_false, ← removes.mem_retired describes regular keeps bound found]
      exact live.2
    exact ⟨owner, name, by rw [findKept bound identifierStays, found]⟩
  · rw [retires.occurrences, forgot.occurrences, Lexicon.meaning?_restrict released,
      describes.occurrences]
    by_cases idStays : keep id = true
    · have isKept : ¬(id ∈ gone ∧ (t.node id).isIdentifier = true) := fun both =>
        (keeps id).mp idStays both.1
      rw [if_neg isKept, if_pos idStays]
      cases means : l.meaning? id with
      | none => rfl
      | some d =>
        rw [Option.bind_some, Option.bind_some,
          findKept (Lexicon.meaning?_some means) (released id d means idStays)]
    · rw [if_neg idStays, Option.bind_none]
      rw [keeps, not_not] at idStays
      split
      · rfl
      · rename_i noIdentifier
        cases means : l.meaning? id with
        | none => rfl
        | some d => exact absurd ⟨idStays, identifiers id d means⟩ noIdentifier
  · obtain ⟨before, identifierStays⟩ := binder.mp bound
    obtain ⟨wasFound, -⟩ := foundBefore found
    obtain ⟨other, -, stands⟩ := describes.stands wasFound
    obtain ⟨distinct, members⟩ := describes.references d id before wasFound
    have same : (after.binding id).references = (s.binding id).references.filter (· ∉ gone) := by
      rw [retires.binding, forgot.references id stands.index stands.live]
    rw [same]
    refine ⟨distinct.filter _, fun use => ?_⟩
    rw [List.mem_filter, members, Lexicon.reads_restrict released, keeps, decide_eq_true_eq]
  · obtain ⟨before, identifierStays⟩ := binder.mp bound
    obtain ⟨wasFound, -⟩ := foundBefore found
    obtain ⟨other, -, stands⟩ := describes.stands wasFound
    obtain ⟨distinct, members⟩ := describes.mutations d id before wasFound
    have same : (after.binding id).mutations = (s.binding id).mutations.filter (· ∉ gone) := by
      rw [retires.binding, forgot.mutations id stands.index stands.live]
    rw [same]
    refine ⟨distinct.filter _, fun use => ?_⟩
    rw [List.mem_filter, members, Lexicon.writes_restrict regular released identifierStays, keeps,
      decide_eq_true_eq]

end Remove

end Scopes

end Unravel
