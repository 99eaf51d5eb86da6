import Unravel.Proofs.Scope.Table

/-!
The steps in which a table comes about: opening a scope, declaring a name, attaching a use. Each
leads from a table that describes a lexicon to one that describes the lexicon with one entry
more.
-/

namespace Unravel

namespace Lexicon

def withScope (l : Lexicon) (node : NodeId) (kind : ScopeKind) (outer : List NodeId) : Lexicon :=
  { l with scopes := fun id => if id = node then some (kind, outer) else l.scopes id }

def withDeclaration (l : Lexicon) (d : Declaration) : Lexicon :=
  { l with declared := l.declared ++ [d] }

def withUse (l : Lexicon) (id : NodeId) (use : Use) : Lexicon :=
  { l with uses := fun other => if other = id then some use else l.uses other }

/-- What an identifier adds to a lexicon that comes to mean `first`: nothing but itself, which
reads or writes `first` as its role says. -/
structure Extends (l after : Lexicon) (identifier : NodeId) (first : Declaration)
    (role : Role) : Prop where
  scopes : after.scopes = l.scopes
  binder : ∀ owner name, after.binder? owner name = l.binder? owner name
  meaning : ∀ id, after.meaning? id = if id = identifier then some first else l.meaning? id
  reads : ∀ e id,
    after.Reads e id ↔ l.Reads e id ∨ (id = identifier ∧ role.reads = true ∧ e = first)
  writes :
    ∀ e id, after.Writes e id ↔ l.Writes e id ∨ (id = identifier ∧ role.writes = true ∧ e = first)

variable {l : Lexicon} {node id : NodeId} {kind : ScopeKind} {outer : List NodeId} {use : Use}
  {d : Declaration}

@[simp] theorem binder?_withScope (owner : NodeId) (name : String) :
    (l.withScope node kind outer).binder? owner name = l.binder? owner name := rfl

@[simp] theorem meaning?_withScope (id : NodeId) :
    (l.withScope node kind outer).meaning? id = l.meaning? id := rfl

@[simp] theorem binder?_withUse (owner : NodeId) (name : String) :
    (l.withUse id use).binder? owner name = l.binder? owner name := rfl

@[simp] theorem look?_withUse (places : List NodeId) (name : String) :
    (l.withUse id use).look? places name = l.look? places name := rfl

theorem meaning?_withUse (other : NodeId) :
    (l.withUse id use).meaning? other =
      if other = id then l.look? use.sight use.name else l.meaning? other := by
  by_cases same : other = id
  · simp [meaning?, withUse, same, look?, binder?]
  · simp [meaning?, withUse, same, look?, binder?, declarationOf?]

theorem binder?_withDeclaration (owner : NodeId) (name : String) :
    (l.withDeclaration d).binder? owner name =
      (l.binder? owner name).or (if d.owner = owner ∧ d.name = name then some d else none) := by
  rw [binder?, withDeclaration, List.find?_append, binder?]
  congr 1
  by_cases same : d.owner = owner ∧ d.name = name <;> simp_all

theorem binder?_withDeclaration_of_some {owner : NodeId} {name : String} {e : Declaration}
    (bound : l.binder? owner name = some e) :
    (l.withDeclaration d).binder? owner name = some e := by
  rw [binder?_withDeclaration, bound, Option.some_or]

theorem declarationOf?_withDeclaration (fresh : ∀ e ∈ l.declared, e.identifier ≠ d.identifier)
    (id : NodeId) :
    (l.withDeclaration d).declarationOf? id =
      if id = d.identifier then some d else l.declarationOf? id := by
  rw [declarationOf?, withDeclaration, List.find?_append]
  by_cases same : id = d.identifier
  · subst same
    have absent : l.declarationOf? d.identifier = none := declarationOf?_eq_none.mpr fresh
    rw [declarationOf?] at absent
    simp [absent]
  · simp [declarationOf?, same, Ne.symm same]

end Lexicon

namespace Scopes

variable {s : Scopes} {l : Lexicon} {t : Tree} {owner node identifier : NodeId} {name : String}
  {d : Declaration}

@[simp] theorem describes_empty : empty.Describes .empty where
  scope node id owned := by simp [empty] at owned
  owned node opens := by simp [Lexicon.empty] at opens
  found owner name d bound := by simp [Lexicon.binder?, Lexicon.empty] at bound
  bound owner name id found := by simp [find?, empty] at found
  live id inside := by simp [empty] at inside
  occurrences id := by simp [empty, Lexicon.meaning?, Lexicon.declarationOf?, Lexicon.empty]
  references d id bound := by simp [Lexicon.binder?, Lexicon.empty] at bound
  mutations d id bound := by simp [Lexicon.binder?, Lexicon.empty] at bound

/-! ### Opening a scope -/

theorem scope_openScope (s : Scopes) (kind : ScopeKind) (node : NodeId) (outer : Option ScopeId)
    (id : ScopeId) :
    (s.openScope kind node outer).2.scope id =
      if id = ⟨s.scopes.size⟩ then ⟨kind, node, outer, ∅⟩ else s.scope id := by
  cases id with | mk index =>
  simp only [openScope, scope, ScopeId.mk.injEq]
  grind

theorem owned_openScope (s : Scopes) (kind : ScopeKind) (node : NodeId) (outer : Option ScopeId)
    (other : NodeId) :
    (s.openScope kind node outer).2.owned[other]? =
      if other = node then some ⟨s.scopes.size⟩ else s.owned[other]? := by
  simp [openScope, Std.HashMap.getElem?_insert, @eq_comm _ node]

theorem Describes.openScope (describes : s.Describes l) (regular : l.Regular)
    (kind : ScopeKind) (outer : List NodeId) (closed : l.scopes node = none)
    (around : ∀ above rest, outer = above :: rest → (l.scopes above).isSome = true) :
    (s.openScope kind node (outer.head?.bind fun above => s.owned[above]?)).2.Describes
      (l.withScope node kind outer) := by
  generalize result : (s.openScope kind node (outer.head?.bind fun above => s.owned[above]?)).2 =
    after
  have owned := s.owned_openScope kind node (outer.head?.bind fun above => s.owned[above]?)
  have scopes := s.scope_openScope kind node (outer.head?.bind fun above => s.owned[above]?)
  rw [result] at owned scopes
  have size : after.scopes.size = s.scopes.size + 1 := by simp [← result, Scopes.openScope]
  have bindings : after.bindings = s.bindings := by rw [← result]; rfl
  have occurrences : after.occurrences = s.occurrences := by rw [← result]; rfl
  have binding (id : BindingId) : after.binding id = s.binding id := by
    rw [Scopes.binding, bindings, Scopes.binding]
  have free : s.owned[node]? = none := by
    rw [← Option.not_isSome_iff_eq_none, describes.owned_isSome, closed]
    exact Bool.false_ne_true
  -- The scope that was opened is new, so nothing else changes.
  have kept {other : NodeId} {id : ScopeId} (wasOwned : s.owned[other]? = some id) :
      after.owned[other]? = some id ∧ after.scope id = s.scope id := by
    have different : other ≠ node := by
      rintro rfl
      rw [free] at wasOwned
      cases wasOwned
    obtain ⟨_, _, -, represents⟩ := describes.scope other id wasOwned
    have inside := represents.index
    have old : id ≠ ⟨s.scopes.size⟩ := by
      rintro rfl
      exact Nat.lt_irrefl _ inside
    rw [owned, if_neg different, scopes, if_neg old]
    exact ⟨wasOwned, rfl⟩
  have find (owner : NodeId) (name : String) : after.find? owner name = s.find? owner name := by
    rw [find?, find?]
    cases wasOwned : s.owned[owner]? with
    | some id =>
      obtain ⟨isOwned, same⟩ := kept wasOwned
      simp [isOwned, same]
    | none =>
      rw [owned]
      split
      · simp [scopes]
      · rw [wasOwned]
        rfl
  have above {places : List NodeId} (opens : ∀ place rest, places = place :: rest →
      (l.scopes place).isSome = true) :
      (places.head?.bind fun place => after.owned[place]?) =
        places.head?.bind fun place => s.owned[place]? := by
    cases places with
    | nil => rfl
    | cons place rest =>
      obtain ⟨id, wasOwned⟩ := describes.owned place (opens place rest rfl)
      simp [wasOwned, (kept wasOwned).1]
  have stands {id : BindingId} {d : Declaration} (before : s.Stands id d) : after.Stands id d :=
    before.transfer (by rw [bindings]; exact before.index) (by rw [binding])
      (by rw [(kept before.scope).1, before.scope])
  refine ⟨fun other id isOwned => ?_, fun other opens => ?_, fun owner name d bound => ?_,
    fun owner name id found => ?_, fun id inside live => ?_, fun id => ?_,
    fun d id bound found => ?_, fun d id bound found => ?_⟩
  · rw [owned] at isOwned
    split at isOwned
    · rename_i same
      rw [Option.some.injEq] at isOwned
      subst isOwned same
      refine ⟨kind, outer, by simp [Lexicon.withScope], ?_, ?_, ?_, ?_⟩
      · simp [size]
      · simp [scopes]
      · simp [scopes]
      · rw [scopes, if_pos rfl, above around]
    · rename_i different
      obtain ⟨otherKind, otherOuter, scope, represents⟩ := describes.scope other id isOwned
      have same := (kept isOwned).2
      refine ⟨otherKind, otherOuter, by simp [Lexicon.withScope, different, scope], ?_, ?_, ?_, ?_⟩
      · rw [size]
        exact Nat.lt_succ_of_lt represents.index
      · rw [same, represents.kind]
      · rw [same, represents.node]
      · rw [same, represents.outer, above]
        rintro place rest rfl
        obtain ⟨aboveKind, aboveScope⟩ := regular.around other otherKind place rest scope
        simp [aboveScope]
  · rw [owned]
    by_cases same : other = node
    · simp [same]
    · rw [if_neg same]
      refine describes.owned other ?_
      simpa [Lexicon.withScope, same] using opens
  · obtain ⟨id, found, before⟩ := describes.found owner name d bound
    exact ⟨id, by rw [find, found], stands before⟩
  · rw [find] at found
    exact describes.bound owner name id found
  · rw [bindings] at inside
    rw [binding] at live
    obtain ⟨owner, name, found⟩ := describes.live id inside live
    exact ⟨owner, name, by rw [find, found]⟩
  · simp only [occurrences, find]
    exact describes.occurrences id
  · rw [find] at found
    rw [binding]
    exact describes.references d id bound found
  · rw [find] at found
    rw [binding]
    exact describes.mutations d id bound found

/-! ### Attaching an identifier -/

theorem nodup_append_if {α : Type} {l : List α} {a : α} {condition : Bool} (distinct : l.Nodup)
    (fresh : a ∉ l) : (if condition then l ++ [a] else l).Nodup := by
  split
  · rw [List.nodup_append]
    refine ⟨distinct, List.nodup_singleton a, ?_⟩
    rintro x member y isLast rfl
    rw [List.mem_singleton] at isLast
    exact fresh (isLast ▸ member)
  · exact distinct

theorem Describes.attach (describes : s.Describes l) (regular : l.Regular) {after : Lexicon}
    {first : Declaration} {role : Role} {existing : BindingId}
    (extends_ : l.Extends after identifier first role) (fresh : l.meaning? identifier = none)
    (found : s.find? first.owner first.name = some existing)
    (bound : l.binder? first.owner first.name = some first) :
    (s.attach identifier existing role).Describes after := by
  obtain ⟨other, otherBound, stands⟩ := describes.stands found
  rw [bound, Option.some.injEq] at otherBound
  subst otherBound
  generalize result : s.attach identifier existing role = s'
  have binding (id : BindingId) : s'.binding id = if id = existing then
      { s.binding existing with
        references := if role.reads then (s.binding existing).references ++ [identifier]
          else (s.binding existing).references
        mutations := if role.writes then (s.binding existing).mutations ++ [identifier]
          else (s.binding existing).mutations }
      else s.binding id := by
    rw [← result]
    exact s.binding_modifyBinding stands.index _ id
  have size : s'.bindings.size = s.bindings.size := by simp [← result, Scopes.attach]
  have find (owner : NodeId) (name : String) : s'.find? owner name = s.find? owner name := by
    rw [← result]
    rfl
  have core (id : BindingId) : core (s'.binding id) = core (s.binding id) := by
    rw [binding]
    split
    · rename_i same
      rw [same, Scopes.core, Scopes.core]
    · rfl
  have isFirst {e : Declaration} (isBound : l.binder? e.owner e.name = some e)
      (isFound : s.find? e.owner e.name = some existing) : e = first := by
    obtain ⟨sameOwner, sameName⟩ := describes.find?_unique isFound found
    rw [sameOwner, sameName, bound, Option.some.injEq] at isBound
    exact isBound.symm
  refine ⟨fun node id owned => ?_, fun node opens => ?_, fun owner name e isBound => ?_,
    fun owner name id isFound => ?_, fun id inside live => ?_, fun id => ?_,
    fun e id isBound isFound => ?_, fun e id isBound isFound => ?_⟩
  · rw [extends_.scopes]
    rw [← result] at owned ⊢
    obtain ⟨kind, outer, scope, represents⟩ := describes.scope node id owned
    exact ⟨kind, outer, scope, represents.index, represents.kind, represents.node, represents.outer⟩
  · rw [extends_.scopes] at opens
    rw [← result]
    exact describes.owned node opens
  · rw [extends_.binder] at isBound
    obtain ⟨id, isFound, before⟩ := describes.found owner name e isBound
    refine ⟨id, by rw [find, isFound], ?_⟩
    exact before.transfer (by rw [size]; exact before.index) (core id) (by rw [← result]; rfl)
  · rw [find] at isFound
    rw [extends_.binder]
    exact describes.bound owner name id isFound
  · rw [size] at inside
    have before : (s.binding id).retired = false := by
      have same := congrArg Binding.retired (core id)
      simp only [Scopes.core] at same
      rw [← same, live]
    obtain ⟨owner, name, isFound⟩ := describes.live id inside before
    exact ⟨owner, name, by rw [find, isFound]⟩
  · have occurrence : s'.occurrences[id]? =
        if id = identifier then some existing else s.occurrences[id]? := by
      rw [← result]
      simp [Scopes.attach, modifyBinding, Std.HashMap.getElem?_insert, @eq_comm _ id]
    rw [occurrence, extends_.meaning]
    split
    · simp [find, found]
    · simp only [find, describes.occurrences id]
  · rw [extends_.binder] at isBound
    rw [find] at isFound
    obtain ⟨distinct, members⟩ := describes.references e id isBound isFound
    rw [binding]
    split
    · rename_i same
      subst same
      have same := isFirst isBound isFound
      subst same
      have absent : identifier ∉ (s.binding id).references := by
        intro member
        rw [Lexicon.meaning?_of_reads ((members _).mp member)] at fresh
        cases fresh
      refine ⟨nodup_append_if distinct absent, fun use => ?_⟩
      rw [extends_.reads, ← members]
      cases role.reads <;> simp
    · rename_i different
      refine ⟨distinct, fun use => ?_⟩
      rw [extends_.reads, members, or_iff_left]
      rintro ⟨-, -, rfl⟩
      rw [found, Option.some.injEq] at isFound
      exact different isFound.symm
  · rw [extends_.binder] at isBound
    rw [find] at isFound
    obtain ⟨distinct, members⟩ := describes.mutations e id isBound isFound
    rw [binding]
    split
    · rename_i same
      subst same
      have same := isFirst isBound isFound
      subst same
      have absent : identifier ∉ (s.binding id).mutations := by
        intro member
        rw [regular.meaning?_of_writes ((members _).mp member)] at fresh
        cases fresh
      refine ⟨nodup_append_if distinct absent, fun use => ?_⟩
      rw [extends_.writes, ← members]
      cases role.writes <;> simp
    · rename_i different
      refine ⟨distinct, fun use => ?_⟩
      rw [extends_.writes, members, or_iff_left]
      rintro ⟨-, -, rfl⟩
      rw [found, Option.some.injEq] at isFound
      exact different isFound.symm

/-! ### Declaring a name -/

theorem redeclared (noUses : ∀ id, l.uses id = none)
    (fresh : ∀ e ∈ l.declared, e.identifier ≠ d.identifier) {first : Declaration}
    (bound : l.binder? d.owner d.name = some first) :
    l.Extends (l.withDeclaration d) d.identifier first .mutation := by
  obtain ⟨firstMember, firstOwner, firstName⟩ := Lexicon.binder?_some bound
  have binder (owner : NodeId) (name : String) :
      (l.withDeclaration d).binder? owner name = l.binder? owner name := by
    rw [Lexicon.binder?_withDeclaration]
    by_cases same : d.owner = owner ∧ d.name = name
    · obtain ⟨rfl, rfl⟩ := same
      rw [bound, Option.some_or]
    · rw [if_neg same, Option.or_none]
  have uses (id : NodeId) : (l.withDeclaration d).uses id = none := noUses id
  refine ⟨rfl, binder, fun id => ?_, fun e id => ?_, fun e id => ?_⟩
  · simp only [Lexicon.meaning?, uses, noUses, binder, Lexicon.declarationOf?_withDeclaration fresh]
    split <;> simp [bound]
  · simp [Lexicon.Reads, uses, noUses, Role.reads]
  · simp only [Lexicon.Writes, binder, Role.writes, true_and]
    simp only [Lexicon.withDeclaration, noUses, List.mem_append, List.mem_singleton]
    constructor
    · rintro (⟨_, impossible, -⟩ | ⟨other, member | rfl, rfl, different, isBound⟩)
      · cases impossible
      · exact .inl (.inr ⟨other, member, rfl, different, isBound⟩)
      · rw [bound, Option.some.injEq] at isBound
        exact .inr ⟨rfl, isBound.symm⟩
    · rintro ((⟨_, impossible, -⟩ | ⟨other, member, rfl, different, isBound⟩) | ⟨rfl, rfl⟩)
      · cases impossible
      · exact .inr ⟨other, .inl member, rfl, different, isBound⟩
      · refine .inr ⟨d, .inr rfl, rfl, ?_, bound⟩
        rintro rfl
        exact fresh d firstMember rfl

theorem Describes.declareNew (describes : s.Describes l) (noUses : ∀ id, l.uses id = none)
    (fresh : ∀ e ∈ l.declared, e.identifier ≠ d.identifier) {scope : ScopeId}
    (owned : s.owned[d.owner]? = some scope) (unbound : s.find? d.owner d.name = none) :
    Describes {
      scopes := s.scopes.modify scope.index fun entry =>
        { entry with names := entry.names.insert d.name ⟨s.bindings.size⟩ }
      bindings := s.bindings.push
        ⟨d.name, d.kind, d.identifier, d.declaration, scope, [], [], false⟩
      owned := s.owned
      occurrences := s.occurrences.insert d.identifier ⟨s.bindings.size⟩ }
        (l.withDeclaration d) := by
  obtain ⟨ownerKind, ownerOuter, -, ownerRepresents⟩ := describes.scope _ _ owned
  have notBound : l.binder? d.owner d.name = none := by
    cases bound : l.binder? d.owner d.name with
    | none => rfl
    | some e =>
      obtain ⟨id, found, -⟩ := describes.found _ _ _ bound
      rw [unbound] at found
      cases found
  generalize result : (Scopes.mk _ _ _ _) = after
  have binding (id : BindingId) : after.binding id = if id = ⟨s.bindings.size⟩ then
      ⟨d.name, d.kind, d.identifier, d.declaration, scope, [], [], false⟩ else s.binding id := by
    cases id with | mk index =>
    rw [← result]
    simp only [Scopes.binding, BindingId.mk.injEq]
    grind
  have scopes (id : ScopeId) : after.scope id = if id = scope then
      { s.scope scope with names := (s.scope scope).names.insert d.name ⟨s.bindings.size⟩ }
      else s.scope id := by
    have inside := ownerRepresents.index
    cases id with | mk index =>
    cases scope with | mk scopeIndex =>
    rw [← result]
    simp only [Scopes.scope, ScopeId.mk.injEq] at *
    grind
  have size : after.bindings.size = s.bindings.size + 1 := by simp [← result]
  have scopesSize : after.scopes.size = s.scopes.size := by simp [← result]
  have sameOwned : after.owned = s.owned := by rw [← result]
  have find (owner : NodeId) (name : String) : after.find? owner name =
      if d.owner = owner ∧ d.name = name then some ⟨s.bindings.size⟩ else s.find? owner name := by
    rw [find?, find?, sameOwned]
    cases isOwned : s.owned[owner]? with
    | none =>
      have different : d.owner ≠ owner := by
        rintro rfl
        rw [owned] at isOwned
        cases isOwned
      simp [different]
    | some id =>
      rw [Option.bind_some, Option.bind_some, scopes]
      by_cases same : id = scope
      · subst same
        have sameOwner := describes.owner_unique owned isOwned
        simp [sameOwner, Std.HashMap.getElem?_insert]
      · have different : d.owner ≠ owner := by
          rintro rfl
          rw [owned, Option.some.injEq] at isOwned
          exact same isOwned.symm
        simp [same, different]
  have oldBinding {id : BindingId} (inside : id.index < s.bindings.size) :
      after.binding id = s.binding id := by
    rw [binding, if_neg]
    rintro rfl
    exact Nat.lt_irrefl _ inside
  have stays {owner : NodeId} {name : String} {e : Declaration}
      (bound : l.binder? owner name = some e) :
      after.find? owner name = s.find? owner name := by
    rw [find, if_neg]
    rintro ⟨rfl, rfl⟩
    rw [notBound] at bound
    cases bound
  have binder {owner : NodeId} {name : String} {e : Declaration}
      (bound : (l.withDeclaration d).binder? owner name = some e) :
      l.binder? owner name = some e ∨ (d.owner = owner ∧ d.name = name ∧ e = d) := by
    rw [Lexicon.binder?_withDeclaration, Option.or_eq_some_iff] at bound
    rcases bound with bound | ⟨-, bound⟩
    · exact .inl bound
    · rw [Option.ite_none_right_eq_some, Option.some.injEq] at bound
      exact .inr ⟨bound.1.1, bound.1.2, bound.2.symm⟩
  have uses (id : NodeId) : (l.withDeclaration d).uses id = none := noUses id
  -- A declaration from before is bound to what it was bound to.
  have oldDeclared {e : Declaration} (member : e ∈ l.declared) :
      (l.withDeclaration d).binder? e.owner e.name = l.binder? e.owner e.name := by
    obtain ⟨first, bound⟩ := Lexicon.exists_binder? member
    rw [bound, Lexicon.binder?_withDeclaration_of_some bound]
  have newBound : (l.withDeclaration d).binder? d.owner d.name = some d := by
    rw [Lexicon.binder?_withDeclaration, notBound]
    simp
  have newFound : after.find? d.owner d.name = some ⟨s.bindings.size⟩ := by rw [find]; simp
  refine ⟨fun node id isOwned => ?_, fun node opens => ?_, fun owner name e bound => ?_,
    fun owner name id isFound => ?_, fun id inside live => ?_, fun id => ?_,
    fun e id bound isFound => ?_, fun e id bound isFound => ?_⟩
  · rw [sameOwned] at isOwned
    obtain ⟨kind, outer, entry, represents⟩ := describes.scope node id isOwned
    refine ⟨kind, outer, entry, by rw [scopesSize]; exact represents.index, ?_, ?_, ?_⟩
    · rw [scopes, ← represents.kind]
      split
      · rename_i same
        rw [same]
      · rfl
    · rw [scopes, ← represents.node]
      split
      · rename_i same
        rw [same]
      · rfl
    · rw [scopes, sameOwned, ← represents.outer]
      split
      · rename_i same
        rw [same]
      · rfl
  · rw [sameOwned]
    exact describes.owned node opens
  · rcases binder bound with before | ⟨rfl, rfl, rfl⟩
    · obtain ⟨id, found, stands⟩ := describes.found owner name e before
      refine ⟨id, by rw [stays before, found], ?_⟩
      exact stands.transfer (by rw [size]; exact Nat.lt_succ_of_lt stands.index)
        (by rw [oldBinding stands.index]) (by rw [sameOwned])
    · refine ⟨_, newFound, ?_⟩
      constructor <;> simp [binding, size, sameOwned, owned]
  · rw [find] at isFound
    split at isFound
    · rename_i same
      obtain ⟨rfl, rfl⟩ := same
      exact ⟨d, newBound⟩
    · obtain ⟨e, bound⟩ := describes.bound owner name id isFound
      exact ⟨e, Lexicon.binder?_withDeclaration_of_some bound⟩
  · by_cases isNew : id = ⟨s.bindings.size⟩
    · exact ⟨d.owner, d.name, by rw [newFound, isNew]⟩
    · have before : id.index < s.bindings.size := by
        rw [size] at inside
        have different : id.index ≠ s.bindings.size :=
          fun same => isNew (by cases id; cases same; rfl)
        omega
      rw [oldBinding before] at live
      obtain ⟨owner, name, found⟩ := describes.live id before live
      obtain ⟨e, bound⟩ := describes.bound owner name id found
      exact ⟨owner, name, by rw [stays bound, found]⟩
  · have occurrence : after.occurrences[id]? =
        if id = d.identifier then some ⟨s.bindings.size⟩ else s.occurrences[id]? := by
      rw [← result]
      simp [Std.HashMap.getElem?_insert, @eq_comm _ id]
    have before := describes.occurrences id
    simp only [Lexicon.meaning?, noUses] at before
    simp only [occurrence, Lexicon.meaning?, uses, Lexicon.declarationOf?_withDeclaration fresh]
    split
    · simp [newBound, newFound]
    · rw [before]
      cases declares : l.declarationOf? id with
      | none => rfl
      | some e =>
        have member := (Lexicon.declarationOf?_some declares).1
        rw [Option.bind_some, Option.bind_some, oldDeclared member]
        obtain ⟨first, bound⟩ := Lexicon.exists_binder? member
        rw [bound, Option.bind_some, Option.bind_some, stays (Lexicon.binder?_self bound)]
  · rcases binder bound with before | ⟨-, -, rfl⟩
    · rw [stays before] at isFound
      obtain ⟨distinct, members⟩ := describes.references e id before isFound
      obtain ⟨_, -, stands⟩ := describes.stands isFound
      rw [oldBinding stands.index]
      refine ⟨distinct, fun use => ?_⟩
      rw [members]
      simp [Lexicon.Reads, uses, noUses]
    · rw [newFound, Option.some.injEq] at isFound
      subst isFound
      rw [binding, if_pos rfl]
      simp [Lexicon.Reads, uses]
  · have writes (use : NodeId) : (l.withDeclaration d).Writes e use ↔
        e ≠ d ∧ l.Writes e use := by
      simp only [Lexicon.Writes, uses, noUses]
      constructor
      · rintro (⟨_, impossible, -⟩ | ⟨other, member, rfl, different, isBound⟩)
        · cases impossible
        · rcases List.mem_append.mp member with member | member
          · rw [oldDeclared member] at isBound
            refine ⟨?_, .inr ⟨other, member, rfl, different, isBound⟩⟩
            rintro rfl
            exact fresh _ (Lexicon.binder?_some isBound).1 rfl
          · rw [List.mem_singleton] at member
            subst member
            rw [newBound, Option.some.injEq] at isBound
            exact absurd isBound different
      · rintro ⟨-, ⟨_, impossible, -⟩ | ⟨other, member, rfl, different, isBound⟩⟩
        · cases impossible
        · refine .inr ⟨other, List.mem_append_left _ member, rfl, different, ?_⟩
          rw [oldDeclared member, isBound]
    rcases binder bound with before | ⟨-, -, rfl⟩
    · rw [stays before] at isFound
      obtain ⟨distinct, members⟩ := describes.mutations e id before isFound
      obtain ⟨_, -, stands⟩ := describes.stands isFound
      rw [oldBinding stands.index]
      refine ⟨distinct, fun use => ?_⟩
      have different : e ≠ d := by
        rintro rfl
        exact fresh _ (Lexicon.binder?_some before).1 rfl
      rw [members, writes, and_iff_right different]
    · rw [newFound, Option.some.injEq] at isFound
      subst isFound
      rw [binding, if_pos rfl]
      simp [writes]

theorem Describes.declare (describes : s.Describes l) (regular : l.Regular)
    (noUses : ∀ id, l.uses id = none) (fresh : ∀ e ∈ l.declared, e.identifier ≠ d.identifier)
    {scope : ScopeId} (owned : s.owned[d.owner]? = some scope)
    (spelled : (t.node d.identifier).identifier? = some d.name) :
    (s.declare t scope d.kind d.declaration d.identifier).Describes (l.withDeclaration d) := by
  have found : s.find? d.owner d.name = (s.scope scope).names[d.name]? := by
    rw [find?, owned, Option.bind_some]
  rw [Scopes.declare, spelled]
  cases named : (s.scope scope).names[d.name]? with
  | none =>
    rw [named] at found
    simp only [named]
    exact describes.declareNew noUses fresh owned found
  | some existing =>
    rw [named] at found
    simp only [named]
    obtain ⟨first, bound, -⟩ := describes.stands found
    obtain ⟨-, sameOwner, sameName⟩ := Lexicon.binder?_some bound
    refine describes.attach regular (redeclared noUses fresh bound) ?_ ?_
      (Lexicon.binder?_self bound)
    · have absent : l.declarationOf? d.identifier = none := Lexicon.declarationOf?_eq_none.mpr fresh
      simp [Lexicon.meaning?, noUses, absent]
    · rw [sameOwner, sameName, found]

/-! ### Attaching a use -/

theorem attached_use {use : Use} (notUsed : l.uses identifier = none)
    (notDeclared : ∀ e ∈ l.declared, e.identifier ≠ identifier) {first : Declaration}
    (means : l.look? use.sight use.name = some first) :
    l.Extends (l.withUse identifier use) identifier first use.role := by
  have uses (id : NodeId) : (l.withUse identifier use).uses id =
      if id = identifier then some use else l.uses id := rfl
  refine ⟨rfl, fun _ _ => rfl, fun id => ?_, fun e id => ?_, fun e id => ?_⟩
  · rw [Lexicon.meaning?_withUse, means]
  · simp only [Lexicon.Reads, uses, Lexicon.look?_withUse]
    by_cases same : id = identifier
    · subst same
      simp only [if_pos, notUsed, true_and, reduceCtorEq, false_and, exists_false, false_or,
        Option.some.injEq]
      constructor
      · rintro ⟨_, rfl, does, found⟩
        rw [means, Option.some.injEq] at found
        exact ⟨does, found.symm⟩
      · rintro ⟨does, rfl⟩
        exact ⟨use, rfl, does, means⟩
    · simp [same]
  · simp only [Lexicon.Writes, uses, Lexicon.look?_withUse, Lexicon.binder?_withUse]
    by_cases same : id = identifier
    · subst same
      have nothing : ¬∃ other ∈ l.declared, other.identifier = id ∧ other ≠ e ∧
          l.binder? other.owner other.name = some e := by
        rintro ⟨other, member, sameIdentifier, -⟩
        exact notDeclared other member sameIdentifier
      simp only [if_pos, notUsed, true_and, reduceCtorEq, false_and, exists_false, false_or,
        Option.some.injEq]
      constructor
      · rintro (⟨_, rfl, does, found⟩ | declared)
        · rw [means, Option.some.injEq] at found
          exact .inr ⟨does, found.symm⟩
        · exact absurd declared nothing
      · rintro (declared | ⟨does, rfl⟩)
        · exact absurd declared nothing
        · exact .inl ⟨use, rfl, does, means⟩
    · simp [same, Lexicon.withUse]

theorem Describes.unresolved (describes : s.Describes l) {use : Use}
    (notUsed : l.uses identifier = none) (notDeclared : ∀ e ∈ l.declared, e.identifier ≠ identifier)
    (meansNothing : l.look? use.sight use.name = none) :
    s.Describes (l.withUse identifier use) := by
  have uses (id : NodeId) : (l.withUse identifier use).uses id =
      if id = identifier then some use else l.uses id := rfl
  have reads (e : Declaration) (id : NodeId) :
      (l.withUse identifier use).Reads e id ↔ l.Reads e id := by
    simp only [Lexicon.Reads, uses, Lexicon.look?_withUse]
    by_cases same : id = identifier
    · subst same
      simp [notUsed, meansNothing]
    · simp [same]
  have writes (e : Declaration) (id : NodeId) :
      (l.withUse identifier use).Writes e id ↔ l.Writes e id := by
    simp only [Lexicon.Writes, uses, Lexicon.look?_withUse, Lexicon.binder?_withUse]
    by_cases same : id = identifier
    · subst same
      simp [notUsed, meansNothing, Lexicon.withUse]
    · simp [same, Lexicon.withUse]
  refine ⟨describes.scope, describes.owned, describes.found, describes.bound, describes.live,
    fun id => ?_, fun e id bound found => ?_, fun e id bound found => ?_⟩
  · rw [describes.occurrences, Lexicon.meaning?_withUse]
    by_cases same : id = identifier
    · subst same
      have absent : l.declarationOf? id = none := Lexicon.declarationOf?_eq_none.mpr notDeclared
      simp [meansNothing, Lexicon.meaning?, notUsed, absent]
    · rw [if_neg same]
  · obtain ⟨distinct, members⟩ := describes.references e id bound found
    exact ⟨distinct, fun other => (members other).trans (reads e other).symm⟩
  · obtain ⟨distinct, members⟩ := describes.mutations e id bound found
    exact ⟨distinct, fun other => (members other).trans (writes e other).symm⟩

theorem attachUse_of_none (s : Scopes) {id : NodeId} (noUse : t.useAt? id = none) :
    s.attachUse t id = s := by
  rw [Tree.useAt?] at noUse
  rw [attachUse]
  cases spelled : (t.node id).identifier? with
  | none => rfl
  | some name =>
    cases role : (t.role id).isUse with
    | false => simp [role]
    | true => simp [spelled, role] at noUse

/-- Attaching a node adds the use that it makes where it stands, if it makes one. -/
theorem Describes.attachUse {root id : NodeId} (describes : s.Describes l) (regular : l.Regular)
    (linked : t.Linked) (isTop : t.IsTop root) (sameScopes : l.scopes = (t.lexicon root).scopes)
    (attached : t.isWithin id root = true) (notUsed : l.uses id = none)
    (notDeclared : ∀ e ∈ l.declared, e.identifier ≠ id) :
    (s.attachUse t id).Describes (match t.useAt? id with
      | some use => l.withUse id use
      | none => l) := by
  rw [Scopes.attachUse, Tree.useAt?]
  cases (t.node id).identifier? with
  | none => exact describes
  | some name =>
    cases isUse : (t.role id).isUse with
    | false => simpa [isUse] using describes
    | true =>
      have resolved := describes.resolve?_eq regular linked isTop sameScopes attached name
      simp only [Option.bind_some, isUse, if_true, resolved]
      cases means : l.look? (t.sight id) name with
      | none => exact describes.unresolved notUsed notDeclared means
      | some first =>
        obtain ⟨-, bound⟩ := Lexicon.look?_some means
        obtain ⟨existing, found, -⟩ := describes.found _ _ _ bound
        simp only [Option.bind_some, found]
        refine describes.attach regular (attached_use notUsed notDeclared means) ?_ found bound
        have absent : l.declarationOf? id = none := Lexicon.declarationOf?_eq_none.mpr notDeclared
        simp [Lexicon.meaning?, notUsed, absent]

end Scopes

end Unravel
