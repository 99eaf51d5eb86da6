import Unravel.Proofs.Scope.Lexicon
import Unravel.Scope.Resolve

/-!
When a table of scopes and bindings describes a lexicon (`Scopes.Describes`): it owns the scopes,
a look-up finds a live binding for what binds the name and nothing else, every live binding is
found, and the identifiers of a binding are those that mean it.

Main statement: what a described table answers depends on the lexicon alone
(`Scopes.Describes.resolve?_eq`).
-/

namespace Unravel.Scopes

/-- The binding of a name in the scope of a node. -/
def find? (s : Scopes) (owner : NodeId) (name : String) : Option BindingId :=
  s.owned[owner]?.bind fun scope => (s.scope scope).names[name]?

structure Represents (s : Scopes) (id : ScopeId) (node : NodeId) (kind : ScopeKind)
    (outer : List NodeId) : Prop where
  index : id.index < s.scopes.size
  kind : (s.scope id).kind = kind
  node : (s.scope id).node = node
  outer : (s.scope id).outer = outer.head?.bind fun above => s.owned[above]?

/-- What a live binding says about the declaration it stands for. -/
structure Stands (s : Scopes) (id : BindingId) (d : Declaration) : Prop where
  index : id.index < s.bindings.size
  live : (s.binding id).retired = false
  name : (s.binding id).name = d.name
  kind : (s.binding id).kind = d.kind
  identifier : (s.binding id).identifier = d.identifier
  declaration : (s.binding id).declaration = d.declaration
  scope : s.owned[d.owner]? = some (s.binding id).scope

/-- What a binding says of its declaration, without its identifiers elsewhere. -/
def core (b : Binding) : Binding := { b with references := [], mutations := [] }

theorem Stands.transfer {s after : Scopes} {id : BindingId} {d : Declaration}
    (stands : s.Stands id d) (inside : id.index < after.bindings.size)
    (same : core (after.binding id) = core (s.binding id))
    (owned : after.owned[d.owner]? = s.owned[d.owner]?) : after.Stands id d := by
  simp only [core, Binding.mk.injEq] at same
  obtain ⟨name, kind, identifier, declaration, scope, -, -, retired⟩ := same
  exact {
    index := inside
    live := retired.trans stands.live
    name := name.trans stands.name
    kind := kind.trans stands.kind
    identifier := identifier.trans stands.identifier
    declaration := declaration.trans stands.declaration
    scope := by rw [owned, stands.scope, scope] }

structure Describes (s : Scopes) (l : Lexicon) : Prop where
  scope : ∀ node id, s.owned[node]? = some id →
    ∃ kind outer, l.scopes node = some (kind, outer) ∧ s.Represents id node kind outer
  owned : ∀ node, (l.scopes node).isSome = true → ∃ id, s.owned[node]? = some id
  found : ∀ owner name d, l.binder? owner name = some d →
    ∃ id, s.find? owner name = some id ∧ s.Stands id d
  bound : ∀ owner name id, s.find? owner name = some id → ∃ d, l.binder? owner name = some d
  live : ∀ id : BindingId, id.index < s.bindings.size → (s.binding id).retired = false →
    ∃ owner name, s.find? owner name = some id
  occurrences : ∀ id, s.occurrences[id]? = (l.meaning? id).bind fun d => s.find? d.owner d.name
  references : ∀ d id, l.binder? d.owner d.name = some d → s.find? d.owner d.name = some id →
    (s.binding id).references.Nodup ∧ ∀ use, use ∈ (s.binding id).references ↔ l.Reads d use
  mutations : ∀ d id, l.binder? d.owner d.name = some d → s.find? d.owner d.name = some id →
    (s.binding id).mutations.Nodup ∧ ∀ use, use ∈ (s.binding id).mutations ↔ l.Writes d use

variable {s : Scopes} {l : Lexicon} {t : Tree} {owner node identifier root : NodeId}
  {name : String} {d : Declaration}

/-! ### Reading tables -/

theorem binding_modifyBinding (s : Scopes) {id : BindingId} (inside : id.index < s.bindings.size)
    (f : Binding → Binding) (other : BindingId) :
    (s.modifyBinding id f).binding other = if other = id then f (s.binding id)
      else s.binding other := by
  cases id with | mk index =>
  cases other with | mk otherIndex =>
  simp only [binding, modifyBinding, BindingId.mk.injEq] at *
  grind

@[simp] theorem size_modifyBinding (s : Scopes) (id : BindingId) (f : Binding → Binding) :
    (s.modifyBinding id f).bindings.size = s.bindings.size := by
  simp [modifyBinding]

namespace Describes

variable (describes : s.Describes l)

include describes

theorem stands {id : BindingId} (found : s.find? owner name = some id) :
    ∃ d, l.binder? owner name = some d ∧ s.Stands id d := by
  obtain ⟨d, bound⟩ := describes.bound owner name id found
  obtain ⟨other, alsoFound, stands⟩ := describes.found owner name d bound
  rw [found, Option.some.injEq] at alsoFound
  rw [alsoFound]
  exact ⟨d, bound, stands⟩

theorem find?_eq_none (unbound : l.binder? owner name = none) : s.find? owner name = none := by
  cases found : s.find? owner name with
  | none => rfl
  | some id =>
    obtain ⟨d, bound⟩ := describes.bound owner name id found
    rw [unbound] at bound
    cases bound

theorem owner_unique {a b : NodeId} {id : ScopeId} (first : s.owned[a]? = some id)
    (second : s.owned[b]? = some id) : a = b := by
  obtain ⟨_, _, -, aRepresents⟩ := describes.scope a id first
  obtain ⟨_, _, -, bRepresents⟩ := describes.scope b id second
  exact aRepresents.node.symm.trans bRepresents.node

theorem find?_unique {a b : NodeId} {aName bName : String} {id : BindingId}
    (first : s.find? a aName = some id) (second : s.find? b bName = some id) :
    a = b ∧ aName = bName := by
  obtain ⟨d, aBound, aStands⟩ := describes.stands first
  obtain ⟨e, bBound, bStands⟩ := describes.stands second
  obtain ⟨-, aOwner, dName⟩ := Lexicon.binder?_some aBound
  obtain ⟨-, bOwner, eName⟩ := Lexicon.binder?_some bBound
  constructor
  · have same := describes.owner_unique aStands.scope bStands.scope
    rwa [aOwner, bOwner] at same
  · rw [← dName, ← eName, ← aStands.name, bStands.name]

theorem owned_isSome (node : NodeId) : s.owned[node]?.isSome = (l.scopes node).isSome := by
  rw [Bool.eq_iff_iff]
  constructor
  · intro isOwned
    obtain ⟨id, owned⟩ := Option.isSome_iff_exists.mp isOwned
    obtain ⟨kind, outer, scope, -⟩ := describes.scope node id owned
    simp [scope]
  · intro opens
    obtain ⟨id, owned⟩ := describes.owned node opens
    simp [owned]

end Describes

/-! ### Chains of scopes -/

def idsOf (s : Scopes) (nodes : List NodeId) : List ScopeId :=
  nodes.filterMap fun node => s.owned[node]?

theorem findSome?_idsOf {β : Type} (s : Scopes) (nodes : List NodeId) (f : ScopeId → Option β) :
    (s.idsOf nodes).findSome? f = nodes.findSome? fun node => s.owned[node]?.bind f := by
  induction nodes with
  | nil => rfl
  | cons head tail induction =>
    rw [idsOf, List.filterMap_cons, List.findSome?_cons]
    cases owned : s.owned[head]? with
    | none => exact induction
    | some id =>
      rw [idsOf] at induction
      simp only [List.findSome?_cons, Option.bind_some, induction]

namespace Describes

variable (describes : s.Describes l)

include describes

theorem nodup_idsOf {nodes : List NodeId} (distinct : nodes.Nodup) : (s.idsOf nodes).Nodup := by
  refine distinct.filterMap ?_
  intro a b id first second
  exact describes.owner_unique first second

variable (regular : l.Regular)

include regular

theorem owned_of_scopes {kind : ScopeKind} {outer : List NodeId}
    (scope : l.scopes node = some (kind, outer)) :
    ∀ place ∈ node :: outer, s.owned[place]?.isSome = true := by
  induction outer generalizing node kind with
  | nil =>
    intro place member
    rw [List.mem_singleton] at member
    rw [describes.owned_isSome, member, scope]
    rfl
  | cons above rest induction =>
    intro place member
    rcases List.mem_cons.mp member with rfl | member
    · rw [describes.owned_isSome, scope]
      rfl
    · obtain ⟨aboveKind, aboveScope⟩ := regular.around node kind above rest scope
      exact induction aboveScope place member

theorem chainWithin_eq {id : ScopeId} {kind : ScopeKind} {outer : List NodeId} {limit : Nat}
    (owned : s.owned[node]? = some id) (scope : l.scopes node = some (kind, outer))
    (enough : outer.length < limit) : s.chainWithin limit id = s.idsOf (node :: outer) := by
  induction limit generalizing node id kind outer with
  | zero => omega
  | succ limit induction =>
    obtain ⟨otherKind, other, alsoScope, represents⟩ := describes.scope node id owned
    rw [scope, Option.some.injEq, Prod.mk.injEq] at alsoScope
    obtain ⟨-, rfl⟩ := alsoScope
    rw [chainWithin, represents.outer, idsOf, List.filterMap_cons_some owned]
    cases outer with
    | nil => rfl
    | cons above rest =>
      obtain ⟨aboveKind, aboveScope⟩ := regular.around node kind above rest scope
      obtain ⟨aboveId, aboveOwned⟩ := describes.owned above (by simp [aboveScope])
      simp only [List.head?_cons, Option.bind_some, aboveOwned]
      rw [List.length_cons] at enough
      rw [induction aboveOwned aboveScope (by omega), idsOf]

theorem length_lt {kind : ScopeKind} {outer : List NodeId}
    (scope : l.scopes node = some (kind, outer)) : outer.length < s.scopes.size := by
  have distinct := describes.nodup_idsOf (regular.nodup node kind outer scope)
  have injective : Function.Injective ScopeId.index := fun a b same => by
    cases a
    cases b
    cases same
    rfl
  have bounded : (s.idsOf (node :: outer)).map ScopeId.index ⊆ List.range s.scopes.size := by
    intro index member
    obtain ⟨id, idMember, rfl⟩ := List.mem_map.mp member
    obtain ⟨place, -, owned⟩ := List.mem_filterMap.mp idMember
    obtain ⟨_, _, -, represents⟩ := describes.scope place id owned
    exact List.mem_range.mpr represents.index
  have bound := (distinct.map injective).length_le_of_subset bounded
  have whole : (s.idsOf (node :: outer)).length = (node :: outer).length :=
    List.filterMap_length_eq_length.mpr (describes.owned_of_scopes regular scope)
  rw [List.length_map, whole, List.length_range, List.length_cons] at bound
  exact bound

theorem chain_eq {id : ScopeId} {kind : ScopeKind} {outer : List NodeId}
    (owned : s.owned[node]? = some id) (scope : l.scopes node = some (kind, outer)) :
    s.chain id = s.idsOf (node :: outer) :=
  describes.chainWithin_eq regular owned scope (describes.length_lt regular scope)

omit regular in
theorem find?_look (places : List NodeId) (name : String) :
    places.findSome? (fun owner => s.find? owner name) =
      (l.look? places name).bind fun d => s.find? d.owner d.name := by
  induction places with
  | nil => rfl
  | cons owner rest induction =>
    rw [Lexicon.look?, List.findSome?_cons, List.findSome?_cons]
    cases bound : l.binder? owner name with
    | none =>
      rw [describes.find?_eq_none bound, induction]
      rfl
    | some d =>
      obtain ⟨-, rfl, rfl⟩ := Lexicon.binder?_some bound
      obtain ⟨id, found, -⟩ := describes.found _ _ _ bound
      simp [found]

theorem lookup?_eq {id : ScopeId} {kind : ScopeKind} {outer : List NodeId}
    (owned : s.owned[node]? = some id) (scope : l.scopes node = some (kind, outer))
    (name : String) :
    s.lookup? id name = (l.look? (node :: outer) name).bind fun d => s.find? d.owner d.name := by
  rw [← describes.find?_look, lookup?, describes.chain_eq regular owned scope, findSome?_idsOf]
  rfl

end Describes

/-! ### Resolving names where they stand -/

theorem isDiscriminant_eq (t : Tree) (inner : Option NodeId) (node : NodeId) :
    (match t.node node with
      | .switch discriminant _ => decide (inner = some discriminant)
      | _ => false) = inner.any fun child => t.holds node child .discriminant := by
  cases inner <;> cases shape : t.node node <;> simp [Tree.holds, Node.part, shape]

theorem scopeAmong?_cons (s : Scopes) (t : Tree) (inner : Option NodeId) (head : NodeId)
    (tail : List NodeId) :
    s.scopeAmong? t inner (head :: tail) =
      match if inner.any fun child => t.holds head child .discriminant then none
        else s.owned[head]? with
      | some scope => some scope
      | none => s.scopeAmong? t (some head) tail := by
  rw [← isDiscriminant_eq]
  rfl

theorem scopeAmong?_eq {inner : Option NodeId} {nodes : List NodeId}
    (owned : ∀ node ∈ nodes, s.owned[node]?.isSome = t.opens node) :
    s.scopeAmong? t inner nodes = (t.scopeAmong? inner nodes).bind fun node => s.owned[node]? := by
  induction nodes generalizing inner with
  | nil => rfl
  | cons head tail induction =>
    rw [List.forall_mem_cons] at owned
    rw [scopeAmong?_cons, Tree.scopeAmong?]
    cases isDiscriminant : inner.any fun child => t.holds head child .discriminant with
    | true => simp [induction owned.2]
    | false =>
      cases opens : t.opens head with
      | true =>
        obtain ⟨id, found⟩ := Option.isSome_iff_exists.mp (owned.1.trans opens)
        simp [found]
      | false =>
        have nothing : s.owned[head]? = none := by
          rw [← Option.not_isSome_iff_eq_none, owned.1, opens]
          exact Bool.false_ne_true
        simp [nothing, induction owned.2]

theorem namedFunction?_eq (t : Tree) (id : NodeId) :
    namedFunction? t id = t.functionNamedBy? id := by
  rw [namedFunction?, Tree.functionNamedBy?]
  cases held : t.parent? id with
  | none => rfl
  | some parent =>
    cases shape : t.node parent <;>
      simp [Tree.holds, Node.function?, Node.part, Node.tag, shape, Option.filter]

namespace Describes

variable (describes : s.Describes l) (regular : l.Regular) (linked : t.Linked)
  (isTop : t.IsTop root) (sameScopes : l.scopes = (t.lexicon root).scopes)

include describes regular linked isTop sameScopes

omit regular linked isTop in
theorem owned_isSome_eq_opens {id : NodeId} (attached : t.isWithin id root = true) :
    s.owned[id]?.isSome = t.opens id := by
  rw [describes.owned_isSome, sameScopes, Bool.eq_iff_iff, Tree.Linked.scopes_isSome]
  simp [attached]

omit regular in
theorem scopeAt?_eq {id : NodeId} (attached : t.isWithin id root = true) :
    s.scopeAt? t id = (t.scopeNode? id).bind fun node => s.owned[node]? := by
  have opensAbove {inner above : NodeId} (inside : t.isWithin inner root = true)
      (within : t.isWithin inner above = true) : s.owned[above]?.isSome = t.opens above :=
    describes.owned_isSome_eq_opens sameScopes
      (linked.isWithin_root_of_above isTop inside within)
  rw [scopeAt?, namedFunction?_eq, Tree.scopeNode?]
  cases named : t.functionNamedBy? id with
  | some function =>
    have held := Tree.parent?_of_functionNamedBy? named
    have functionAttached := linked.isWithin_root_of_above isTop attached
      (linked.isWithin_of_parent held)
    exact scopeAmong?_eq fun node member =>
      opensAbove functionAttached (Tree.isWithin_iff.mpr (.inr member))
  | none =>
    refine scopeAmong?_eq fun node member => opensAbove attached (Tree.isWithin_iff.mpr ?_)
    rw [List.mem_cons] at member
    exact member.imp_left Eq.symm

/-- A name is resolved to what it means in the scopes in sight. -/
theorem resolve?_eq {id : NodeId} (attached : t.isWithin id root = true) (name : String) :
    s.resolve? t id name = (l.look? (t.sight id) name).bind fun d => s.find? d.owner d.name := by
  rw [resolve?, describes.scopeAt?_eq linked isTop sameScopes attached, Tree.sight]
  cases found : t.scopeNode? id with
  | none => rfl
  | some node =>
    obtain ⟨within, opens⟩ := linked.isWithin_of_scopeNode? found
    have nodeAttached := linked.isWithin_root_of_above isTop attached within
    obtain ⟨kind, isKind⟩ := Option.isSome_iff_exists.mp opens
    have scope : l.scopes node = some (kind, t.scopesAround node) := by
      simp [sameScopes, Tree.lexicon, nodeAttached, isKind]
    obtain ⟨scopeId, owned⟩ := describes.owned node (by simp [scope])
    have places : t.scopesFrom node = node :: t.scopesAround node := by
      rw [Tree.scopesFrom, List.filter_cons_of_pos opens, Tree.scopesAround]
    simp only [Option.bind_some, owned, Option.toList_some, List.flatMap_cons, List.flatMap_nil,
      List.append_nil, places]
    exact describes.lookup?_eq regular owned scope name

end Describes

end Unravel.Scopes
