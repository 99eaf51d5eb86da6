import Mathlib.Data.List.Induction
import Unravel.Proofs.Scope.Removal
import Unravel.Program.Edit

/-!
What `Program.removeReferences` does to the table of a program: node by node it forgets scopes and
identifiers, and binding by binding it retires what the nodes declared. As long as it does not
mark the program as stale, this is a removal in the sense of `Scopes.Removes`.
-/

namespace Unravel

namespace Scopes

variable {s s' : Scopes} {l : Lexicon} {t : Tree} {done : List NodeId} {id : NodeId}

theorem Describes.stands_of_live (describes : s.Describes l) {binding : BindingId}
    (inside : binding.index < s.bindings.size) (live : (s.binding binding).retired = false) :
    ∃ d, l.binder? d.owner d.name = some d ∧ s.find? d.owner d.name = some binding := by
  obtain ⟨owner, name, found⟩ := describes.live binding inside live
  obtain ⟨d, bound⟩ := describes.bound owner name binding found
  obtain ⟨-, rfl, rfl⟩ := Lexicon.binder?_some bound
  exact ⟨d, bound, found⟩

theorem Describes.occurrence_of_mem (describes : s.Describes l) (regular : l.Regular)
    {binding : BindingId} (inside : binding.index < s.bindings.size)
    (live : (s.binding binding).retired = false)
    (member : id ∈ (s.binding binding).references ∨ id ∈ (s.binding binding).mutations) :
    (∃ d, l.meaning? id = some d) ∧ s.occurrences[id]? = some binding := by
  obtain ⟨d, bound, found⟩ := describes.stands_of_live inside live
  have means : l.meaning? id = some d := by
    rcases member with member | member
    · exact Lexicon.meaning?_of_reads
        (((describes.references d binding bound found).2 id).mp member)
    · exact regular.meaning?_of_writes
        (((describes.mutations d binding bound found).2 id).mp member)
  exact ⟨⟨d, means⟩, by rw [describes.occurrences, means, Option.bind_some, found]⟩

theorem Describes.live_of_occurrence (describes : s.Describes l) {binding : BindingId}
    (occurs : s.occurrences[id]? = some binding) :
    binding.index < s.bindings.size ∧ (s.binding binding).retired = false := by
  rw [describes.occurrences] at occurs
  obtain ⟨d, means, found⟩ := Option.bind_eq_some_iff.mp occurs
  obtain ⟨_, -, stands⟩ := describes.stands found
  exact ⟨stands.index, stands.live⟩

theorem forgot_nil (t : Tree) (s : Scopes) : Forgot t s s [] where
  scopes := rfl
  size := rfl
  owned id := by simp
  occurrences id := by simp
  core _ := rfl
  references id _ _ := by simp
  mutations id _ _ := by simp

/-- One node more is forgotten: its scope, and the binding it belongs to. -/
def forgetAt (t : Tree) (s : Scopes) (id : NodeId) : Scopes :=
  let s := if t.opens id then s.forget id else s
  if (t.node id).isIdentifier then s.detach id else s

theorem owned_forget (s : Scopes) (node other : NodeId) :
    (s.forget node).owned[other]? = if other = node then none else s.owned[other]? := by
  simp [forget, Std.HashMap.getElem?_erase, @eq_comm _ node]

/-- A list without some nodes, and without one more that it does not hold or that is dropped. -/
theorem filter_notMem_append {ids : List NodeId} (absent : id ∉ ids) :
    ids.filter (· ∉ done ++ [id]) = ids.filter (· ∉ done) := by
  apply List.filter_congr
  intro other member
  have different : other ≠ id := fun same => absent (same ▸ member)
  simp [different]

theorem filter_notMem_append_eq (ids : List NodeId) :
    ids.filter (· ∉ done ++ [id]) = (ids.filter (· ∉ done)).filter (· ≠ id) := by
  rw [List.filter_filter]
  apply List.filter_congr
  intro other _
  simp [Bool.and_comm]

section ForgetAt

variable (forgot : Forgot t s s' done) (describes : s.Describes l) (regular : l.Regular)
  (identifiers : ∀ id d, l.meaning? id = some d → (t.node id).isIdentifier = true)
  (fresh : id ∉ done)

include forgot describes regular identifiers fresh

/-- An identifier without a binding is in no list. -/
private theorem Forgot.keepBindings
    (absent : s.occurrences[id]? = none ∨ (t.node id).isIdentifier = false) (after : Scopes)
    (scopes : after.scopes = s'.scopes) (bindings : after.bindings = s'.bindings)
    (occurrences : after.occurrences = s'.occurrences) (owned : ∀ other, after.owned[other]? =
      if other = id ∧ t.opens id = true then none else s'.owned[other]?) :
    Forgot t s after (done ++ [id]) where
  scopes := scopes.trans forgot.scopes
  size := by rw [bindings, forgot.size]
  owned other := by
    rw [owned, forgot.owned]
    by_cases same : other = id
    · subst same
      by_cases opens : t.opens other = true <;> simp [opens]
    · simp [same]
  occurrences other := by
    rw [occurrences, forgot.occurrences]
    by_cases same : other = id
    · subst same
      rcases absent with absent | absent <;> simp [absent]
    · simp [same]
  core binding := by
    rw [Scopes.binding, bindings, ← Scopes.binding, forgot.core]
  references binding inside live := by
    rw [Scopes.binding, bindings, ← Scopes.binding, forgot.references binding inside live,
      filter_notMem_append]
    intro member
    obtain ⟨⟨d, means⟩, occurs⟩ := describes.occurrence_of_mem regular inside live (.inl member)
    rcases absent with absent | absent
    · rw [absent] at occurs
      cases occurs
    · rw [identifiers id d means] at absent
      cases absent
  mutations binding inside live := by
    rw [Scopes.binding, bindings, ← Scopes.binding, forgot.mutations binding inside live,
      filter_notMem_append]
    intro member
    obtain ⟨⟨d, means⟩, occurs⟩ := describes.occurrence_of_mem regular inside live (.inr member)
    rcases absent with absent | absent
    · rw [absent] at occurs
      cases occurs
    · rw [identifiers id d means] at absent
      cases absent

theorem Forgot.forgetAt : Forgot t s (s'.forgetAt t id) (done ++ [id]) := by
  have same : s'.occurrences[id]? = s.occurrences[id]? := by
    rw [forgot.occurrences, if_neg fun both => fresh both.1]
  -- The scope goes first; it has no part in the bindings.
  generalize closed : (if t.opens id then s'.forget id else s') = s₁
  have scopes : s₁.scopes = s'.scopes := by rw [← closed]; split <;> rfl
  have bindings : s₁.bindings = s'.bindings := by rw [← closed]; split <;> rfl
  have occurrences : s₁.occurrences = s'.occurrences := by rw [← closed]; split <;> rfl
  have owned (other : NodeId) : s₁.owned[other]? =
      if other = id ∧ t.opens id = true then none else s'.owned[other]? := by
    rw [← closed]
    by_cases opens : t.opens id = true
    · simp [opens, owned_forget]
    · simp [opens]
  have result : s'.forgetAt t id = if (t.node id).isIdentifier then s₁.detach id else s₁ := by
    rw [Scopes.forgetAt, closed]
  rw [result]
  have occursNow : s₁.occurrences[id]? = s.occurrences[id]? := by rw [occurrences, same]
  cases isIdentifier : (t.node id).isIdentifier with
  | false =>
    exact forgot.keepBindings describes regular identifiers fresh (.inr isIdentifier) s₁ scopes
      bindings occurrences owned
  | true =>
    rw [if_pos rfl, detach, occursNow]
    cases occurs : s.occurrences[id]? with
    | none =>
      exact forgot.keepBindings describes regular identifiers fresh (.inl occurs) s₁ scopes bindings
        occurrences owned
    | some existing =>
      obtain ⟨inside, live⟩ := describes.live_of_occurrence occurs
      have insideNow : existing.index < s₁.bindings.size := by rwa [bindings, forgot.size]
      have binding (other : BindingId) := s₁.binding_modifyBinding insideNow (fun b =>
        { b with
        references := b.references.filter (· ≠ id), mutations := b.mutations.filter (· ≠ id) })
          other
      have before (other : BindingId) : s₁.binding other = s'.binding other := by
        rw [Scopes.binding, bindings, Scopes.binding]
      have elsewhere {other : BindingId} (different : other ≠ existing)
          (otherInside : other.index < s.bindings.size)
          (otherLive : (s.binding other).retired = false) :
          id ∉ (s.binding other).references ∧ id ∉ (s.binding other).mutations := by
        constructor <;> intro member
        · have occursThere :=
            (describes.occurrence_of_mem regular otherInside otherLive (.inl member)).2
          rw [occurs, Option.some.injEq] at occursThere
          exact different occursThere.symm
        · have occursThere :=
            (describes.occurrence_of_mem regular otherInside otherLive (.inr member)).2
          rw [occurs, Option.some.injEq] at occursThere
          exact different occursThere.symm
      refine ⟨scopes.trans forgot.scopes, ?_, fun other => ?_, fun other => ?_, fun other => ?_,
        fun other otherInside otherLive => ?_, fun other otherInside otherLive => ?_⟩
      · rw [← forgot.size, ← bindings]
        exact s₁.size_modifyBinding existing _
      · change s₁.owned[other]? = _
        rw [owned, forgot.owned]
        by_cases sameNode : other = id
        · subst sameNode
          by_cases opens : t.opens other = true <;> simp [opens]
        · simp [sameNode]
      · change (s₁.occurrences.erase id)[other]? = _
        rw [Std.HashMap.getElem?_erase, occurrences, forgot.occurrences]
        by_cases sameNode : other = id
        · subst sameNode
          simp [isIdentifier]
        · simp [sameNode, Ne.symm sameNode]
      · change Scopes.core ((s₁.modifyBinding existing _).binding other) = _
        rw [binding, ← forgot.core, ← before]
        split
        · rename_i sameBinding
          rw [sameBinding, Scopes.core, Scopes.core]
        · rfl
      · change ((s₁.modifyBinding existing _).binding other).references = _
        rw [binding]
        split
        · rename_i sameBinding
          subst sameBinding
          rw [before, forgot.references other inside live, filter_notMem_append_eq]
        · rename_i different
          rw [before, forgot.references other otherInside otherLive, filter_notMem_append]
          exact (elsewhere different otherInside otherLive).1
      · change ((s₁.modifyBinding existing _).binding other).mutations = _
        rw [binding]
        split
        · rename_i sameBinding
          subst sameBinding
          rw [before, forgot.mutations other inside live, filter_notMem_append_eq]
        · rename_i different
          rw [before, forgot.mutations other otherInside otherLive, filter_notMem_append]
          exact (elsewhere different otherInside otherLive).2

end ForgetAt

/-! ### Retiring bindings -/

theorem retired_nil (s : Scopes) : Retired s s [] where
  size := rfl
  scopesSize := rfl
  owned := rfl
  occurrences := rfl
  entry _ := ⟨rfl, rfl, rfl⟩
  names id name := by
    cases (s.scope id).names[name]? <;> simp [Option.filter_some]
  binding id := by simp

theorem scope_retire (s : Scopes) (binding : BindingId) (id : ScopeId) :
    (s.retire binding).scope id =
      if id = (s.binding binding).scope ∧ id.index < s.scopes.size then
        (if (s.scope id).names[(s.binding binding).name]? = some binding then
          { s.scope id with names := (s.scope id).names.erase (s.binding binding).name }
        else s.scope id)
      else s.scope id := by
  cases id with | mk index =>
  cases isScope : (s.binding binding).scope with | mk scopeIndex =>
  simp only [retire, scope, isScope, ScopeId.mk.injEq]
  change ((s.scopes.modify scopeIndex _)[index]?).getD default = _
  rw [Array.getElem?_modify]
  by_cases same : scopeIndex = index
  · subst same
    by_cases inside : scopeIndex < s.scopes.size
    · simp [inside]
    · simp [inside]
  · simp [same, Ne.symm same]

theorem Retired.retire {binding : BindingId} {retired : List BindingId}
    (before : Retired s s' retired) (inside : binding.index < s.bindings.size) :
    Retired s (s'.retire binding) (retired ++ [binding]) := by
  have sameBinding (id : BindingId) : (s'.retire binding).binding id =
      if id = binding then { s'.binding binding with retired := true } else s'.binding id :=
    s'.binding_modifyBinding (by rwa [before.size]) _ id
  have fields : (s'.binding binding).scope = (s.binding binding).scope ∧
      (s'.binding binding).name = (s.binding binding).name := by
    rw [before.binding]
    exact ⟨rfl, rfl⟩
  refine ⟨?_, ?_, before.owned, before.occurrences, fun id => ?_, fun id name => ?_, fun id => ?_⟩
  · rw [← before.size]
    exact s'.size_modifyBinding binding _
  · rw [← before.scopesSize]
    exact Array.size_modify
  · rw [scope_retire]
    obtain ⟨kind, node, outer⟩ := before.entry id
    split
    · split <;> exact ⟨kind, node, outer⟩
    · exact ⟨kind, node, outer⟩
  · have split_ : ((s'.retire binding).scope id).names[name]? =
        ((s'.scope id).names[name]?).filter fun other =>
          !(decide (other = binding) && decide ((s.binding binding).scope = id)
            && decide ((s.binding binding).name = name)) := by
      rw [scope_retire, fields.1, fields.2]
      by_cases isScope : id = (s.binding binding).scope ∧ id.index < s'.scopes.size
      · rw [if_pos isScope]
        by_cases isNamed : (s'.scope id).names[(s.binding binding).name]? = some binding
        · rw [if_pos isNamed]
          change ((s'.scope id).names.erase (s.binding binding).name)[name]? = _
          rw [Std.HashMap.getElem?_erase]
          by_cases sameName : (s.binding binding).name = name
          · subst sameName
            rw [isNamed, Option.filter_some]
            simp [isScope.1]
          · cases (s'.scope id).names[name]? <;> simp [sameName, Option.filter_some]
        · rw [if_neg isNamed]
          cases found : (s'.scope id).names[name]? with
          | none => rfl
          | some other =>
            rw [Option.filter_some, if_pos]
            by_cases sameName : (s.binding binding).name = name
            · subst sameName
              have different : other ≠ binding := by
                rintro rfl
                exact isNamed found
              simp [different]
            · simp [sameName]
      · rw [if_neg isScope]
        cases found : (s'.scope id).names[name]? with
        | none => rfl
        | some other =>
          have isInside : id.index < s'.scopes.size := by
            by_contra outside
            rw [Scopes.scope, Array.getElem?_eq_none (Nat.le_of_not_lt outside)] at found
            simp [default, instInhabitedScope.default] at found
          have different : (s.binding binding).scope ≠ id :=
            fun same => isScope ⟨same.symm, isInside⟩
          simp [different, Option.filter_some]
    rw [split_, before.names, Option.filter_filter]
    congr 1
    funext other
    by_cases isLast : other = binding
    · subst isLast
      by_cases isOld : other ∈ retired <;> simp [isOld]
    · simp [isLast]
  · rw [sameBinding, before.binding, before.binding]
    split
    · rename_i same
      simp [same]
    · rename_i different
      simp [different]

end Scopes

namespace Program

variable {p : Program} {l : Lexicon}

def declaredBy? (p : Program) (id : NodeId) : Option BindingId :=
  if (p.node id).isIdentifier then
    (p.bindingOf? id).filter fun binding => (p.binding binding).identifier = id
  else none

theorem forgetNode_eq (p : Program) (id : NodeId) :
    p.forgetNode id = ({ p with scopes := p.scopes.forgetAt p.tree id }, p.declaredBy? id) := by
  obtain ⟨tree, root, scopes, stale⟩ := p
  simp only [forgetNode, Scopes.forgetAt, declaredBy?, Tree.opens, node, bindingOf?,
    Scopes.bindingOf?, binding]
  have sameOccurrence : (scopes.forget id).occurrences[id]? = scopes.occurrences[id]? := rfl
  have sameBinding (b : BindingId) : (scopes.forget id).binding b = scopes.binding b := rfl
  by_cases opens : (tree.scopeKind? id).isSome = true <;>
    by_cases isIdentifier : (tree.node id).isIdentifier = true <;>
    cases occurs : scopes.occurrences[id]? <;>
    simp [opens, isIdentifier, occurs, sameOccurrence, sameBinding, Scopes.detach,
      Option.filter_some]
  all_goals exact if_congr decide_eq_true_iff.symm rfl rfl

theorem root_release (p : Program) (id : BindingId) : (p.release id).root = p.root := by
  simp only [release]
  split <;> rfl

theorem tree_release (p : Program) (id : BindingId) : (p.release id).tree = p.tree := by
  simp only [release]
  split <;> rfl

theorem foldl_release (p : Program) (ids : List BindingId) :
    (ids.foldl release p).tree = p.tree ∧ (ids.foldl release p).root = p.root := by
  induction ids generalizing p with
  | nil => exact ⟨rfl, rfl⟩
  | cons id rest induction =>
    obtain ⟨tree, root⟩ := induction (p.release id)
    exact ⟨tree.trans (tree_release p id), root.trans (root_release p id)⟩

theorem stale_foldl_release (p : Program) (ids : List BindingId) (stale : p.stale = true) :
    (ids.foldl release p).stale = true := by
  induction ids generalizing p with
  | nil => exact stale
  | cons id rest induction =>
    refine induction _ ?_
    simp only [release]
    split
    · exact stale
    · rfl

theorem retired_foldl_release {s' : Scopes} {retired ids : List BindingId} (p : Program)
    (before : s'.Retired p.scopes retired) (inside : ∀ id ∈ ids, id.index < s'.bindings.size)
    (fresh : (ids.foldl release p).stale = false) :
    s'.Retired (ids.foldl release p).scopes (retired ++ ids) ∧
      ∀ id ∈ ids, (s'.binding id).references = [] ∧ (s'.binding id).mutations = [] := by
  induction ids generalizing p retired with
  | nil => simpa using before
  | cons id rest induction =>
    rw [List.forall_mem_cons] at inside
    rw [List.foldl_cons] at fresh ⊢
    have fields : (p.binding id).references = (s'.binding id).references ∧
        (p.binding id).mutations = (s'.binding id).mutations := by
      rw [binding, before.binding]
      exact ⟨rfl, rfl⟩
    by_cases free : (s'.binding id).references = [] ∧ (s'.binding id).mutations = []
    · have released : p.release id = { p with scopes := p.scopes.retire id } := by
        simp [release, fields, free]
      rw [released] at fresh ⊢
      obtain ⟨after, others⟩ := induction _ (before.retire inside.1) inside.2 fresh
      refine ⟨by simpa using after, ?_⟩
      rw [List.forall_mem_cons]
      exact ⟨free, others⟩
    · have marked : p.release id = { p with stale := true } := by
        simp only [release, fields]
        rw [if_neg]
        simpa using free
      rw [marked, stale_foldl_release _ rest rfl] at fresh
      cases fresh

/-- Bindings that nothing refers to are released without marking the program. -/
theorem stale_foldl_release_of_free {s' : Scopes} {retired ids : List BindingId} (p : Program)
    (before : s'.Retired p.scopes retired) (inside : ∀ id ∈ ids, id.index < s'.bindings.size)
    (fresh : p.stale = false)
    (free : ∀ id ∈ ids, (s'.binding id).references = [] ∧ (s'.binding id).mutations = []) :
    (ids.foldl release p).stale = false := by
  induction ids generalizing p retired with
  | nil => exact fresh
  | cons id rest induction =>
    rw [List.forall_mem_cons] at inside free
    have fields : (p.binding id).references = [] ∧ (p.binding id).mutations = [] := by
      rw [binding, before.binding]
      exact free.1
    have released : p.release id = { p with scopes := p.scopes.retire id } := by
      simp [release, fields]
    rw [List.foldl_cons, released]
    exact induction _ (before.retire inside.1) inside.2 fresh free.2

def forgetAll (p : Program) (ids : List NodeId) : Program × List BindingId :=
  ids.foldl (fun (p, declared) id =>
    match p.forgetNode id with
    | (p, some binding) => (p, declared ++ [binding])
    | (p, none) => (p, declared)) (p, [])

theorem forgetAll_append (p : Program) (ids : List NodeId) (id : NodeId) :
    p.forgetAll (ids ++ [id]) =
      ({ (p.forgetAll ids).1 with
          scopes := (p.forgetAll ids).1.scopes.forgetAt (p.forgetAll ids).1.tree id },
        (p.forgetAll ids).2 ++ ((p.forgetAll ids).1.declaredBy? id).toList) := by
  rw [forgetAll, List.foldl_append, ← forgetAll, List.foldl_cons, List.foldl_nil]
  simp only [forgetNode_eq]
  cases (p.forgetAll ids).1.declaredBy? id <;> simp

/-- What the fold comes to: a table without the nodes, and the bindings that they declared. -/
structure ForgotAll (p : Program) (ids : List NodeId) (p' : Program) (declared : List BindingId) :
    Prop where
  tree : p'.tree = p.tree
  root : p'.root = p.root
  stale : p'.stale = p.stale
  forgot : Scopes.Forgot p.tree p.scopes p'.scopes ids
  declared : ∀ id, id ∈ declared ↔ ∃ node ∈ ids, (p.node node).isIdentifier = true ∧
    p.scopes.occurrences[node]? = some id ∧ (p.binding id).identifier = node

theorem forgotAll (describes : p.scopes.Describes l) (regular : l.Regular)
    (identifiers : ∀ id d, l.meaning? id = some d → (p.tree.node id).isIdentifier = true)
    (ids : List NodeId) (distinct : ids.Nodup) :
    ForgotAll p ids (p.forgetAll ids).1 (p.forgetAll ids).2 := by
  induction ids using List.reverseRecOn with
  | nil => exact ⟨rfl, rfl, rfl, Scopes.forgot_nil p.tree p.scopes, by simp [forgetAll]⟩
  | append_singleton ids id induction =>
    rw [List.nodup_append] at distinct
    have fresh : id ∉ ids := fun member => distinct.2.2 id member id (by simp) rfl
    have before := induction distinct.1
    rw [forgetAll_append]
    refine ⟨before.tree, before.root, before.stale, ?_, fun binding => ?_⟩
    · rw [before.tree]
      exact before.forgot.forgetAt describes regular identifiers fresh
    · have sameOccurrence : (p.forgetAll ids).1.bindingOf? id = p.scopes.occurrences[id]? := by
        rw [bindingOf?, Scopes.bindingOf?, before.forgot.occurrences,
          if_neg fun both => fresh both.1]
      have sameIdentifier (b : BindingId) :
          ((p.forgetAll ids).1.binding b).identifier = (p.binding b).identifier := by
        have same := congrArg Binding.identifier (before.forgot.core b)
        exact same
      have sameNode : (p.forgetAll ids).1.node id = p.node id := by rw [node, before.tree, node]
      rw [List.mem_append, before.declared, declaredBy?, sameNode, sameOccurrence]
      constructor
      · rintro (⟨node, member, holds⟩ | last)
        · exact ⟨node, List.mem_append_left _ member, holds⟩
        · rw [Option.mem_toList, Option.ite_none_right_eq_some, Option.filter_eq_some_iff,
            decide_eq_true_eq, sameIdentifier] at last
          exact ⟨id, by simp, last.1, last.2.1, last.2.2⟩
      · rintro ⟨node, member, isIdentifier, occurs, isIts⟩
        rcases List.mem_append.mp member with member | member
        · exact .inl ⟨node, member, isIdentifier, occurs, isIts⟩
        · rw [List.mem_singleton] at member
          subst member
          refine .inr ?_
          rw [Option.mem_toList, if_pos isIdentifier, Option.filter_eq_some_iff, decide_eq_true_eq,
            sameIdentifier]
          exact ⟨occurs, isIts⟩

theorem removeReferences_eq (p : Program) (root : NodeId) :
    p.removeReferences root =
      (p.forgetAll (p.tree.descendants root)).2.foldl release
        (p.forgetAll (p.tree.descendants root)).1 := rfl

theorem fields_forgetAll (p : Program) (ids : List NodeId) :
    (p.forgetAll ids).1.tree = p.tree ∧ (p.forgetAll ids).1.root = p.root := by
  induction ids using List.reverseRecOn with
  | nil => exact ⟨rfl, rfl⟩
  | append_singleton ids id induction =>
    rw [forgetAll_append]
    exact induction

@[simp] theorem tree_removeReferences (p : Program) (root : NodeId) :
    (p.removeReferences root).tree = p.tree := by
  rw [removeReferences_eq, (foldl_release _ _).1, (fields_forgetAll p _).1]

@[simp] theorem root_removeReferences (p : Program) (root : NodeId) :
    (p.removeReferences root).root = p.root := by
  rw [removeReferences_eq, (foldl_release _ _).2, (fields_forgetAll p _).2]

/-- Unless it marks the program as stale, the removal takes the nodes out of the table. -/
theorem removes_of_removeReferences (describes : p.scopes.Describes l) (regular : l.Regular)
    (identifiers : ∀ id d, l.meaning? id = some d → (p.tree.node id).isIdentifier = true)
    {root : NodeId} (distinct : (p.tree.descendants root).Nodup)
    (fresh : (p.removeReferences root).stale = false) :
    ∃ s' retired, Scopes.Removes p.tree p.scopes s' (p.removeReferences root).scopes
      (p.tree.descendants root) retired := by
  have all := forgotAll describes regular identifiers _ distinct
  rw [removeReferences_eq] at fresh ⊢
  generalize (p.forgetAll (p.tree.descendants root)).1 = p' at *
  generalize (p.forgetAll (p.tree.descendants root)).2 = declared at *
  have inside : ∀ id ∈ declared, id.index < p'.scopes.bindings.size := by
    intro id member
    obtain ⟨node, -, -, occurs, -⟩ := (all.declared id).mp member
    rw [all.forgot.size]
    exact (describes.live_of_occurrence occurs).1
  obtain ⟨retires, free⟩ := retired_foldl_release p' (Scopes.retired_nil p'.scopes) inside fresh
  rw [List.nil_append] at retires
  refine ⟨p'.scopes, declared, all.forgot, retires, fun id _ _ => ?_, free⟩
  rw [all.declared, Scopes.IsDeclaredIn]
  constructor
  · rintro ⟨node, member, -, occurs, rfl⟩
    exact ⟨member, occurs⟩
  · rintro ⟨member, occurs⟩
    refine ⟨_, member, ?_, occurs, rfl⟩
    rw [describes.occurrences] at occurs
    obtain ⟨d, means, -⟩ := Option.bind_eq_some_iff.mp occurs
    exact identifiers _ d means

theorem stale_removeReferences_iff (describes : p.scopes.Describes l) (regular : l.Regular)
    (identifiers : ∀ id d, l.meaning? id = some d → (p.tree.node id).isIdentifier = true)
    {root : NodeId} (distinct : (p.tree.descendants root).Nodup) (unmarked : p.stale = false) :
    (p.removeReferences root).stale = false ↔
      l.Released fun id => decide (id ∉ p.tree.descendants root) := by
  constructor
  · intro fresh
    obtain ⟨s', retired, removes⟩ := removes_of_removeReferences describes regular
      identifiers distinct fresh
    exact removes.released describes regular (by simp)
  · intro released
    have all := forgotAll describes regular identifiers _ distinct
    rw [removeReferences_eq]
    have free : ∀ id ∈ (p.forgetAll (p.tree.descendants root)).2,
        id.index < p.scopes.bindings.size ∧
          ((p.forgetAll (p.tree.descendants root)).1.scopes.binding id).references = [] ∧
          ((p.forgetAll (p.tree.descendants root)).1.scopes.binding id).mutations = [] := by
      intro id member
      obtain ⟨node, leaves, -, occurs, isIts⟩ := (all.declared id).mp member
      obtain ⟨inside, live⟩ := describes.live_of_occurrence occurs
      rw [describes.occurrences] at occurs
      obtain ⟨d, means, found⟩ := Option.bind_eq_some_iff.mp occurs
      have bound := Lexicon.meaning?_some means
      obtain ⟨other, alsoBound, stands⟩ := describes.stands found
      rw [bound, Option.some.injEq] at alsoBound
      subst alsoBound
      have declared : d.identifier ∈ p.tree.descendants root := by
        rw [← stands.identifier]
        rwa [← isIts] at leaves
      -- Whatever still referred to the binding would mean what goes away.
      have gone (use : NodeId) (refers : l.Reads d use ∨ l.Writes d use) :
          use ∈ p.tree.descendants root := by
        by_contra stays
        have means : l.meaning? use = some d :=
          refers.elim Lexicon.meaning?_of_reads regular.meaning?_of_writes
        have kept := released use d means (decide_eq_true stays)
        exact (of_decide_eq_true kept) declared
      refine ⟨inside, ?_, ?_⟩
      · rw [all.forgot.references id inside live, List.filter_eq_nil_iff]
        intro use member
        simpa using gone use (.inl (((describes.references d id bound found).2 use).mp member))
      · rw [all.forgot.mutations id inside live, List.filter_eq_nil_iff]
        intro use member
        simpa using gone use (.inr (((describes.mutations d id bound found).2 use).mp member))
    refine stale_foldl_release_of_free _ (Scopes.retired_nil _) (fun id member => ?_)
      (all.stale.trans unmarked) fun id member => (free id member).2
    rw [all.forgot.size]
    exact (free id member).1

end Program

end Unravel
