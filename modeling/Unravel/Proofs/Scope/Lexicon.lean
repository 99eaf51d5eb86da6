import Unravel.Proofs.Scope.Alike

/-!
What a table of scopes and bindings has to say, without the table: which nodes open scopes, what
is declared in them in which order, and where each use looks its name up. `Tree.lexicon` reads
this off a tree.

The first declaration of a name in a scope binds it (`Lexicon.binder?`), and a name means what
binds it in the nearest scope in sight (`Lexicon.look?`).
-/

namespace Unravel

/-- A use of a name, with the scopes it is looked up in, the nearest first. -/
structure Use where
  name : String
  role : Role
  sight : List NodeId

/-- The scopes by the nodes that open them, each with its kind and the scopes around it, the
declarations in source order, and the uses by their identifiers. -/
structure Lexicon where
  scopes : NodeId → Option (ScopeKind × List NodeId)
  declared : List Declaration
  uses : NodeId → Option Use

namespace Lexicon

def empty : Lexicon := ⟨fun _ => none, [], fun _ => none⟩

/-- The declaration that binds a name in a scope. -/
def binder? (l : Lexicon) (owner : NodeId) (name : String) : Option Declaration :=
  l.declared.find? fun d => d.owner = owner && d.name = name

/-- What a name means that is looked up in some scopes. -/
def look? (l : Lexicon) (places : List NodeId) (name : String) : Option Declaration :=
  places.findSome? fun owner => l.binder? owner name

/-- The declaration with a given identifier. -/
def declarationOf? (l : Lexicon) (id : NodeId) : Option Declaration :=
  l.declared.find? fun d => d.identifier = id

/-- What an identifier means: what its use finds, or what binds the name that it declares. -/
def meaning? (l : Lexicon) (id : NodeId) : Option Declaration :=
  match l.uses id with
  | some use => l.look? use.sight use.name
  | none => (l.declarationOf? id).bind fun d => l.binder? d.owner d.name

/-- Whether an identifier reads what a declaration binds. -/
def Reads (l : Lexicon) (d : Declaration) (id : NodeId) : Prop :=
  ∃ use, l.uses id = some use ∧ use.role.reads = true ∧ l.look? use.sight use.name = some d

/-- Whether an identifier writes what a declaration binds. A second declaration of a name in its
scope writes it. -/
def Writes (l : Lexicon) (d : Declaration) (id : NodeId) : Prop :=
  (∃ use, l.uses id = some use ∧ use.role.writes = true ∧ l.look? use.sight use.name = some d) ∨
    ∃ e ∈ l.declared, e.identifier = id ∧ e ≠ d ∧ l.binder? e.owner e.name = some d

/-- What is left of a lexicon when only some nodes stay. -/
def restrict (l : Lexicon) (keep : NodeId → Bool) : Lexicon where
  scopes id := if keep id then l.scopes id else none
  declared := l.declared.filter fun d => keep d.identifier
  uses id := if keep id then l.uses id else none

/-- The lexicon with only some of its uses. -/
def usedAt (l : Lexicon) (keep : NodeId → Bool) : Lexicon where
  scopes := l.scopes
  declared := l.declared
  uses id := if keep id then l.uses id else none

/-- What holds of the lexicons of trees: identifiers are declared once and are no uses then,
scopes are declared in and looked up in together with all scopes around them. -/
structure Regular (l : Lexicon) : Prop where
  distinct : (l.declared.map (·.identifier)).Nodup
  unused : ∀ d ∈ l.declared, l.uses d.identifier = none
  owner : ∀ d ∈ l.declared, (l.scopes d.owner).isSome
  isUse : ∀ id use, l.uses id = some use → use.role.isUse = true
  around : ∀ id kind outer rest, l.scopes id = some (kind, outer :: rest) →
    ∃ outerKind, l.scopes outer = some (outerKind, rest)
  nodup : ∀ id kind outer, l.scopes id = some (kind, outer) → (id :: outer).Nodup

variable {l : Lexicon} {owner id : NodeId} {name : String} {d e : Declaration}

theorem binder?_some (found : l.binder? owner name = some d) :
    d ∈ l.declared ∧ d.owner = owner ∧ d.name = name := by
  have holds := List.find?_some found
  rw [Bool.and_eq_true, decide_eq_true_eq, decide_eq_true_eq] at holds
  exact ⟨List.mem_of_find?_eq_some found, holds.1, holds.2⟩

theorem binder?_eq_none_of_undeclared (undeclared : ∀ d ∈ l.declared, d.name ≠ name)
    (owner : NodeId) :
    l.binder? owner name = none := by
  rw [Option.eq_none_iff_forall_ne_some]
  intro d found
  obtain ⟨member, -, isName⟩ := binder?_some found
  exact undeclared d member isName

theorem binder?_self (found : l.binder? owner name = some d) :
    l.binder? d.owner d.name = some d := by
  obtain ⟨-, rfl, rfl⟩ := binder?_some found
  exact found

theorem binder?_eq_none : l.binder? owner name = none ↔
    ∀ d ∈ l.declared, d.owner = owner → d.name ≠ name := by
  simp [binder?]

/-- A declared name is bound, by its first declaration. -/
theorem exists_binder? (member : d ∈ l.declared) : ∃ e, l.binder? d.owner d.name = some e := by
  cases found : l.binder? d.owner d.name with
  | some e => exact ⟨e, rfl⟩
  | none => exact absurd rfl (binder?_eq_none.mp found d member rfl)

theorem look?_some {places : List NodeId} (found : l.look? places name = some d) :
    d.owner ∈ places ∧ l.binder? d.owner d.name = some d := by
  obtain ⟨owner, member, found⟩ := List.exists_of_findSome?_eq_some found
  refine ⟨?_, binder?_self found⟩
  rwa [(binder?_some found).2.1]

theorem name_of_look? {places : List NodeId} (found : l.look? places name = some d) :
    d.name = name := by
  obtain ⟨owner, -, bound⟩ := List.exists_of_findSome?_eq_some found
  exact (binder?_some bound).2.2

theorem meaning?_some (found : l.meaning? id = some d) : l.binder? d.owner d.name = some d := by
  rw [meaning?] at found
  split at found
  · exact (look?_some found).2
  · obtain ⟨e, -, bound⟩ := Option.bind_eq_some_iff.mp found
    exact binder?_self bound

theorem declarationOf?_some (found : l.declarationOf? id = some d) :
    d ∈ l.declared ∧ d.identifier = id := by
  have holds := List.find?_some found
  exact ⟨List.mem_of_find?_eq_some found, by simpa using holds⟩

theorem declarationOf?_eq_none :
    l.declarationOf? id = none ↔ ∀ d ∈ l.declared, d.identifier ≠ id := by
  simp [declarationOf?]

/-- Whatever reads a binding belongs to it. -/
theorem meaning?_of_reads (reads : l.Reads d id) : l.meaning? id = some d := by
  obtain ⟨use, isUse, -, found⟩ := reads
  simp only [meaning?, isUse, found]

namespace Regular

variable (regular : l.Regular)

include regular

theorem eq_of_identifier (first : d ∈ l.declared) (second : e ∈ l.declared)
    (same : d.identifier = e.identifier) : d = e :=
  List.inj_on_of_nodup_map regular.distinct first second same

theorem declarationOf?_of_mem (member : d ∈ l.declared) :
    l.declarationOf? d.identifier = some d := by
  cases found : l.declarationOf? d.identifier with
  | none => exact absurd rfl (declarationOf?_eq_none.mp found d member)
  | some e =>
    obtain ⟨other, same⟩ := declarationOf?_some found
    rw [regular.eq_of_identifier other member same]

theorem meaning?_of_declared (member : d ∈ l.declared) :
    l.meaning? d.identifier = l.binder? d.owner d.name := by
  rw [meaning?, regular.unused d member]
  simp only [regular.declarationOf?_of_mem member, Option.bind_some]

theorem meaning?_of_writes (writes : l.Writes d id) : l.meaning? id = some d := by
  rcases writes with ⟨use, isUse, -, found⟩ | ⟨e, member, rfl, -, bound⟩
  · simp only [meaning?, isUse, found]
  · rw [regular.meaning?_of_declared member, bound]

/-- What belongs to a binding is its declared identifier, or reads or writes it. -/
theorem reads_or_writes (means : l.meaning? id = some d) (different : id ≠ d.identifier) :
    l.Reads d id ∨ l.Writes d id := by
  rw [meaning?] at means
  split at means
  · rename_i use isUse
    have role := regular.isUse id use isUse
    rw [Role.isUse, Bool.or_eq_true] at role
    rcases role with reads | writes
    · exact .inl ⟨use, isUse, reads, means⟩
    · exact .inr (.inl ⟨use, isUse, writes, means⟩)
  · obtain ⟨e, found, bound⟩ := Option.bind_eq_some_iff.mp means
    obtain ⟨member, same⟩ := declarationOf?_some found
    refine .inr (.inr ⟨e, member, same, ?_, bound⟩)
    rintro rfl
    exact different same.symm

end Regular

end Lexicon

namespace Tree

/-- The use that an identifier makes of a name where it stands. -/
def useAt? (t : Tree) (id : NodeId) : Option Use :=
  (t.node id).identifier?.bind fun name =>
    if (t.role id).isUse then some ⟨name, t.role id, t.sight id⟩ else none

/-- The lexicon of the tree below a root. -/
def lexicon (t : Tree) (root : NodeId) : Lexicon where
  scopes id := if t.isWithin id root then (t.scopeKind? id).map (·, t.scopesAround id) else none
  declared := (t.descendants root).flatMap t.declarationsAt
  uses id := if t.isWithin id root then t.useAt? id else none

variable {t after : Tree} {id root old owner : NodeId} {new : Option NodeId} {d : Declaration}

theorem Alike.useAt? {shared : NodeId → Prop} (alike : t.Alike after shared) (linked : t.Linked)
    (afterLinked : after.Linked) (isShared : shared id) : after.useAt? id = t.useAt? id := by
  rw [Tree.useAt?, Tree.useAt?, alike.identifier? isShared, alike.role linked afterLinked isShared,
    alike.sight linked afterLinked isShared]

/-- A root of a tree that was allocated and that nothing holds. -/
structure IsTop (t : Tree) (root : NodeId) : Prop where
  allocated : t.Allocated root
  top : t.parent? root = none

theorem Linked.scopesAround_eq (linked : t.Linked) {outer : NodeId} {rest : List NodeId}
    (around : t.scopesAround id = outer :: rest) : rest = t.scopesAround outer := by
  induction id using linked.induction with
  | step id induction =>
    cases held : t.parent? id with
    | none => simp [scopesAround, ancestors_of_root held] at around
    | some parent =>
      rw [scopesAround, linked.ancestors_of_parent held, List.filter_cons] at around
      split at around
      · rw [List.cons.injEq] at around
        obtain ⟨rfl, rfl⟩ := around
        rfl
      · exact induction parent held around

theorem Linked.scopesFrom_eq (linked : t.Linked) {first : NodeId} {rest : List NodeId}
    (places : t.scopesFrom id = first :: rest) : rest = t.scopesAround first := by
  rw [scopesFrom, List.filter_cons] at places
  split at places
  · rw [List.cons.injEq] at places
    obtain ⟨rfl, rfl⟩ := places
    rfl
  · exact linked.scopesAround_eq places

namespace Linked

variable (linked : t.Linked) (isTop : t.IsTop root)

include linked isTop

theorem mem_declared : d ∈ (t.lexicon root).declared ↔
    ∃ id, t.isWithin id root = true ∧ d ∈ t.declarationsAt id := by
  simp only [lexicon, List.mem_flatMap, linked.mem_descendants_iff isTop.allocated]

/-- A node around an attached one is attached. -/
theorem isWithin_root_of_above {inner outer : NodeId} (attached : t.isWithin inner root = true)
    (above : t.isWithin inner outer = true) : t.isWithin outer root = true := by
  rcases linked.isWithin_linear attached above with within | within
  · rw [isWithin_of_root isTop.top] at within
    rw [within, isWithin_self]
  · exact within

omit linked isTop in
theorem scopes_isSome : ((t.lexicon root).scopes id).isSome = true ↔
    t.isWithin id root = true ∧ t.opens id = true := by
  simp only [lexicon, opens]
  split <;> simp_all

theorem scopes_owner (member : d ∈ (t.lexicon root).declared) :
    t.isWithin d.identifier root = true ∧ t.isWithin d.identifier d.owner = true ∧
      t.isWithin d.owner root = true ∧ t.opens d.owner = true := by
  obtain ⟨id, attached, declared⟩ := (linked.mem_declared isTop).mp member
  have introduces := linked.introduces_of_mem declared
  have below := linked.isWithin_of_mem declared
  exact ⟨linked.isWithin_trans below attached, linked.isWithin_trans below introduces.owner,
    linked.isWithin_root_of_above isTop attached introduces.owner, introduces.opens⟩

theorem regular : (t.lexicon root).Regular where
  distinct := linked.nodup_declarations (linked.nodup_descendants isTop.allocated)
  unused d member := by
    obtain ⟨id, -, declared⟩ := (linked.mem_declared isTop).mp member
    have noUse := linked.isUse_role_of_binds (linked.binds_of_mem declared)
    simp only [lexicon, useAt?, noUse]
    simp
  owner d member := by
    obtain ⟨-, -, attached, opens⟩ := linked.scopes_owner isTop member
    exact (scopes_isSome).mpr ⟨attached, opens⟩
  isUse id use found := by
    simp only [lexicon, useAt?, Option.ite_none_right_eq_some, Option.bind_eq_some_iff] at found
    obtain ⟨-, name, -, isUse, same⟩ := found
    rw [Option.some.injEq] at same
    rwa [← same]
  around id kind outer rest found := by
    simp only [lexicon, Option.ite_none_right_eq_some, Option.map_eq_some_iff,
      Prod.mk.injEq] at found
    obtain ⟨attached, -, -, -, around⟩ := found
    have member : outer ∈ t.scopesAround id := by simp [around]
    rw [mem_scopesAround] at member
    have outerAttached := linked.isWithin_root_of_above isTop attached
      (isWithin_iff.mpr (.inr member.1))
    obtain ⟨outerKind, opens⟩ := Option.isSome_iff_exists.mp member.2
    refine ⟨outerKind, ?_⟩
    simp only [lexicon, outerAttached, opens, if_true, Option.map_some]
    rw [linked.scopesAround_eq around]
  nodup id kind outer found := by
    simp only [lexicon, Option.ite_none_right_eq_some, Option.map_eq_some_iff,
      Prod.mk.injEq] at found
    obtain ⟨-, -, -, -, rfl⟩ := found
    exact (linked.nodup_ancestors id).sublist (List.filter_sublist.cons_cons id)

theorem isWithin_owner_of_meaning? (means : (t.lexicon root).meaning? id = some d) :
    t.isWithin id d.owner = true := by
  rw [Lexicon.meaning?] at means
  split at means
  · rename_i use isUse
    simp only [lexicon, Option.ite_none_right_eq_some, useAt?, Option.bind_eq_some_iff,
      Option.some.injEq] at isUse
    obtain ⟨-, name, -, -, rfl⟩ := isUse
    exact (linked.mem_sight (Lexicon.look?_some means).1).1
  · obtain ⟨e, found, bound⟩ := Option.bind_eq_some_iff.mp means
    obtain ⟨member, rfl⟩ := Lexicon.declarationOf?_some found
    rw [(Lexicon.binder?_some bound).2.1]
    exact (linked.scopes_owner isTop member).2.1

end Linked

/-- What is detached does not hang below a root. -/
theorem Exchangeable.isWithin_root (possible : t.Exchangeable old new) (linked : t.Linked)
    (isTop : t.IsTop root) (notNew : new ≠ some root) (incoming : t.isIncoming new id = true) :
    t.isWithin id root = false := by
  obtain ⟨n, isNew, within⟩ := isIncoming_iff.mp incoming
  rw [Bool.eq_false_iff]
  intro attached
  have above := linked.isWithin_root_of_above isTop attached within
  rw [isWithin_of_root (possible.detached n isNew)] at above
  exact notNew (by rw [isNew, above])

theorem Exchangeable.root_stays (possible : t.Exchangeable old new) (linked : t.Linked)
    (isTop : t.IsTop root) (attached : t.isWithin old root = true) (notNew : new ≠ some root) :
    t.Stays old new root where
  outside := by
    rw [Bool.eq_false_iff]
    intro within
    have same := linked.isWithin_antisymm within attached
    obtain ⟨parent, held⟩ := possible.held
    rw [← same, isTop.top] at held
    cases held
  present := by
    rw [Bool.eq_false_iff]
    intro incoming
    have apart := possible.isWithin_root linked isTop notNew incoming
    rw [isWithin_self] at apart
    cases apart

theorem flatMap_filter_of_nil {α β : Type} {l : List α} {f : α → List β} (keep : α → Bool)
    (nothing : ∀ a ∈ l, keep a = false → f a = []) : (l.filter keep).flatMap f = l.flatMap f := by
  induction l with
  | nil => rfl
  | cons head tail induction =>
    rw [List.forall_mem_cons] at nothing
    rw [List.filter_cons, List.flatMap_cons, ← induction nothing.2]
    split
    · rfl
    · rw [nothing.1 (by simp_all), List.nil_append]

namespace Edited

variable (edited : t.Edited after old new) (linked : t.Linked) (possible : t.Exchangeable old new)

include edited linked possible

variable (isTop : t.IsTop root) (attached : t.isWithin old root = true) (notNew : new ≠ some root)

include isTop attached notNew

theorem top_after : after.IsTop root where
  allocated := edited.allocated.mpr isTop.allocated
  top := by
    rw [edited.parent?_of_stays (possible.root_stays linked isTop attached notNew), isTop.top]

theorem filter_declared :
    ((after.lexicon root).declared).filter (fun d => !t.isIncoming new d.identifier) =
      ((t.lexicon root).declared).filter fun d => !t.isWithin d.identifier old := by
  have afterLinked := edited.linked linked possible
  have stays := possible.root_stays linked isTop attached notNew
  have order := edited.filter_descendants linked possible isTop.allocated
    stays.outside stays.present
  simp only [lexicon, List.filter_flatMap]
  rw [← flatMap_filter_of_nil (l := after.descendants root) fun id => !t.isIncoming new id,
    ← flatMap_filter_of_nil (l := t.descendants root) fun id => !t.isWithin id old, order]
  · rw [List.flatMap_def, List.flatMap_def]
    congr 1
    apply List.map_congr_left
    intro id member
    rw [List.mem_filter, linked.mem_descendants_iff isTop.allocated, Bool.not_eq_true'] at member
    refine edited.filter_declarationsAt linked possible ⟨member.2, ?_⟩
    rw [Bool.eq_false_iff]
    intro incoming
    have detached := possible.isWithin_root linked isTop notNew incoming
    rw [member.1] at detached
    cases detached
  · intro id _ leaving
    rw [Bool.not_eq_false'] at leaving
    rw [List.filter_eq_nil_iff]
    intro d member
    simp [linked.isWithin_trans (linked.isWithin_of_mem member) leaving]
  · intro id _ incoming
    rw [Bool.not_eq_false', isIncoming_iff] at incoming
    obtain ⟨n, isNew, within⟩ := incoming
    rw [List.filter_eq_nil_iff]
    intro d member
    rw [← edited.isWithin_new linked possible isNew] at within
    have below := afterLinked.isWithin_trans (afterLinked.isWithin_of_mem member) within
    rw [edited.isWithin_new linked possible isNew] at below
    simp [isNew, below]

theorem restrict_lexicon :
    (after.lexicon root).restrict (fun id => !t.isIncoming new id) =
      (t.lexicon root).restrict fun id => !t.isWithin id old := by
  -- What is read off the attached nodes one by one agrees where they stay.
  have pointwise {β : Type} (f g : NodeId → Option β)
      (same : ∀ id, t.Stays old new id → f id = g id) (id : NodeId) :
      (if (!t.isIncoming new id) = true then
        if after.isWithin id root = true then f id else none else none) =
      if (!t.isWithin id old) = true then
        if t.isWithin id root = true then g id else none else none := by
    have reached : after.isWithin id root = true ↔ _ :=
      edited.isWithin_root_iff linked possible isTop.top attached notNew
    by_cases incoming : t.isIncoming new id = true
    · simp [incoming, possible.isWithin_root linked isTop notNew incoming]
    · rw [Bool.not_eq_true] at incoming
      by_cases leaving : t.isWithin id old = true
      · simp [incoming, leaving, reached]
      · rw [Bool.not_eq_true] at leaving
        simp [incoming, leaving, reached, same id ⟨leaving, incoming⟩]
  have alike := edited.alike linked possible
  have afterLinked := edited.linked linked possible
  have scopes := pointwise (fun id => (after.scopeKind? id).map (·, after.scopesAround id))
    (fun id => (t.scopeKind? id).map (·, t.scopesAround id)) fun id stays => by
      simp only [alike.scopeKind? stays, alike.scopesAround linked afterLinked stays]
  have uses := pointwise after.useAt? t.useAt? fun id stays =>
    alike.useAt? linked afterLinked stays
  have declared := edited.filter_declared linked possible isTop attached notNew
  simp only [Lexicon.restrict, Lexicon.mk.injEq]
  exact ⟨funext scopes, declared, funext uses⟩

end Edited

/-- A change of a store that leaves a tree alone leaves its lexicon as it is. -/
theorem Unchanged.lexicon_eq (unchanged : t.Unchanged after root) (linked : t.Linked)
    (afterLinked : after.Linked) (isTop : t.IsTop root) (afterAllocated : after.Allocated root) :
    after.lexicon root = t.lexicon root := by
  have alike := unchanged.alike linked isTop.top
  have within (id : NodeId) : after.isWithin id root = t.isWithin id root :=
    unchanged.isWithin_root linked afterLinked isTop.top
  simp only [lexicon, within, Lexicon.mk.injEq]
  refine ⟨funext fun id => ?_, ?_, funext fun id => ?_⟩
  · split
    · rename_i attached
      rw [alike.scopeKind? attached, alike.scopesAround linked afterLinked attached]
    · rfl
  · rw [unchanged.descendants linked afterLinked isTop.allocated afterAllocated isWithin_self,
      List.flatMap_def, List.flatMap_def]
    congr 1
    apply List.map_congr_left
    intro id member
    rw [linked.mem_descendants_iff isTop.allocated] at member
    exact unchanged.declarationsAt linked afterLinked isTop.top member
  · split
    · rename_i attached
      exact alike.useAt? linked afterLinked attached
    · rfl

theorem Agrees.mem_declared_iff {shared : NodeId → Prop} {root' : NodeId} {d : Declaration}
    (agrees : t.Agrees after shared) (linked : t.Linked) (afterLinked : after.Linked)
    (isTop : t.IsTop root) (afterTop : after.IsTop root')
    (attached : ∀ {id}, shared id → t.isWithin id root = true)
    (attachedAfter : ∀ {id}, shared id → after.isWithin id root' = true)
    (isShared : shared d.identifier) :
    d ∈ (after.lexicon root').declared ↔ d ∈ (t.lexicon root).declared := by
  have above {id : NodeId} (within : t.isWithin d.identifier id = true) : shared id := by
    rcases isWithin_iff.mp within with rfl | member
    · exact isShared
    · exact Alike.shared_of_mem_ancestors linked agrees.toAlike isShared member
  rw [linked.mem_declared isTop, afterLinked.mem_declared afterTop]
  constructor
  · rintro ⟨id, -, member⟩
    have within := afterLinked.isWithin_of_mem member
    rw [agrees.isWithin linked afterLinked isShared] at within
    rw [agrees.declarationsAt linked afterLinked (above within)] at member
    exact ⟨id, attached (above within), member⟩
  · rintro ⟨id, -, member⟩
    have isAbove := above (linked.isWithin_of_mem member)
    rw [← agrees.declarationsAt linked afterLinked isAbove] at member
    exact ⟨id, attachedAfter isAbove, member⟩

end Tree

end Unravel
