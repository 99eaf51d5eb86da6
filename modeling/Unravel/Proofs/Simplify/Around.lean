import Unravel.Proofs.Scope.Sealed
import Unravel.Proofs.Simplify.Expanded

/-!
What stays as it was where a call has been expanded: everything outside the call hangs, means and
declares what it did (`Program.Expanded.alike_after`, `meaning?_of_outside`, `look?_of_outside`).
-/

namespace Unravel

namespace Lexicon

variable {l : Lexicon} {inner places : List NodeId} {name : String} {found : Option Declaration}

theorem look?_of_append (isFound : l.look? (inner ++ places) name = found)
    (far : ∀ d, found = some d → d.owner ∉ inner) : l.look? places name = found := by
  rw [look?, List.findSome?_append] at isFound
  cases nearer : l.look? inner name with
  | none => rwa [← look?, nearer, Option.none_or] at isFound
  | some d =>
    rw [← look?, nearer, Option.some_or] at isFound
    exact absurd (look?_some nearer).1 (far d isFound.symm)

end Lexicon

namespace Tree

variable {t after : Tree} {id outer root parent : NodeId}

theorem find?_filter_of_imp {α : Type} {l : List α} (keep wanted : α → Bool)
    (kept : ∀ a ∈ l, wanted a = true → keep a = true) :
    (l.filter keep).find? wanted = l.find? wanted := by
  induction l with
  | nil => rfl
  | cons head rest induction =>
    rw [List.forall_mem_cons] at kept
    rw [List.filter_cons, List.find?_cons, ← induction kept.2]
    split
    · rw [List.find?_cons]
    · rename_i dropped
      cases isWanted : wanted head with
      | true => exact absurd (kept.1 isWanted) dropped
      | false => rfl

theorem Linked.exists_scopesAround (linked : t.Linked) (within : t.isWithin id outer = true) :
    ∃ inner, t.scopesAround id = inner ++ t.scopesAround outer ∧
      ∀ owner ∈ inner, t.isWithin owner outer = true := by
  induction id using linked.induction with
  | step id induction =>
    by_cases same : id = outer
    · exact ⟨[], by rw [same, List.nil_append], by simp⟩
    · obtain ⟨parent, held, above⟩ := linked.exists_parent_of_isWithin within same
      obtain ⟨inner, around, inside⟩ := induction parent held above
      rw [linked.scopesAround_of_parent held]
      cases opens : t.opens parent with
      | true =>
        refine ⟨parent :: inner, ?_, List.forall_mem_cons.mpr ⟨above, inside⟩⟩
        rw [scopesFrom_of_opens opens, around, List.cons_append]
      | false => exact ⟨inner, by rw [scopesFrom_of_closed opens, around], inside⟩

theorem role_of_call {callee : NodeId} {arguments : List NodeId} (held : t.parent? id = some parent)
    (shape : t.node parent = .call callee arguments) : t.role id = .reference := by
  rw [role, held]
  simp only [shape]

theorem Sealed.of_same (isSealed : t.Sealed root) (linked : t.Linked)
    (same : ∀ id, t.isWithin id root = true → after.node id = t.node id) : after.Sealed root := by
  induction isSealed with
  | @function root f shape kind => exact .function ((same root isWithin_self).trans shape) kind
  | @inert root isInert _ induction =>
    have sameRoot := same root isWithin_self
    refine .inert (sameRoot ▸ isInert) fun child held => ?_
    rw [sameRoot] at held
    refine induction child held fun id within => same id ?_
    exact linked.isWithin_trans within (linked.isWithin_of_parent (linked.mem_children.mp held))

/-- What is sealed stays so when something sealed comes in. -/
theorem Edited.isSealed {old new : NodeId} (edited : t.Edited after old (some new))
    (isSealed : t.Sealed root) (sealedNew : after.Sealed new) : after.Sealed root := by
  induction isSealed with
  | @function root f shape kind =>
    have tag := edited.tag root
    rw [shape] at tag
    cases shapeAfter : after.node root with
    | function g =>
      rw [shapeAfter, Node.tag, Node.tag, Node.function.injEq] at tag
      refine .function shapeAfter ?_
      have := congrArg Function.kind tag
      exact this.trans kind
    | _ => rw [shapeAfter] at tag; cases tag
  | @inert root isInert _ induction =>
    refine .inert ?_ fun child held => ?_
    · rw [← Node.isInert_tag, edited.tag, Node.isInert_tag, isInert]
    · rw [(edited.node root).children, mem_flatMap_swap] at held
      rcases held with ⟨held, -⟩ | ⟨-, isNew⟩
      · exact induction child held
      · exact Option.some.inj isNew ▸ sealedNew

end Tree

namespace Program

variable {p after : Program} {e : Expansion} {expression call value id owner outer parent : NodeId}
  {grown : Tree} {name : String} {d : Declaration}

namespace Expanded

variable (expanded : p.Expanded e expression call value grown after)

include expanded

theorem not_isWithin_value (allocated : p.tree.Allocated id) :
    after.tree.isWithin id value = false := by
  rw [expanded.edited.isWithin_new expanded.building.grows.linked expanded.possible rfl]
  exact expanded.building.grows.not_isWithin_new expanded.steady.linked allocated expanded.loose.new

theorem attached_iff : after.tree.isWithin id after.root = true ↔
    (p.tree.isWithin id p.root = true ∧ p.tree.isWithin id call = false) ∨
      after.tree.isWithin id value = true := by
  have linked := expanded.steady.linked
  have grows := expanded.building.grows
  rw [expanded.root, expanded.edited.isWithin_root_iff grows.linked expanded.possible
    expanded.isTop.top expanded.attachedGrown expanded.notRoot, Tree.isIncoming_some,
    ← expanded.edited.isWithin_new grows.linked expanded.possible rfl,
    grows.isWithin linked expanded.steady.isTop.allocated,
    grows.isWithin linked expanded.allocatedCall]

theorem stays (attached : p.tree.isWithin id p.root = true)
    (outside : p.tree.isWithin id call = false) :
    grown.Stays call (some value) id where
  outside := by
    rw [expanded.building.grows.isWithin expanded.steady.linked expanded.allocatedCall, outside]
  present := by
    rw [Tree.isIncoming_some,
      ← expanded.edited.isWithin_new expanded.building.grows.linked expanded.possible rfl]
    exact expanded.not_isWithin_value
      (expanded.steady.linked.allocated_of_isWithin attached expanded.steady.isTop.allocated)

theorem parent?_of_outside (attached : p.tree.isWithin id p.root = true)
    (outside : p.tree.isWithin id call = false) :
    after.tree.parent? id = p.tree.parent? id := by
  rw [expanded.edited.parent?_of_stays (expanded.stays attached outside),
    expanded.building.grows.parent? (expanded.steady.linked.allocated_of_isWithin attached
      expanded.steady.isTop.allocated)]

theorem alike_after : p.tree.Alike after.tree fun id =>
    p.tree.isWithin id p.root = true ∧ p.tree.isWithin id call = false where
  tag {id} shared := by
    rw [expanded.edited.tag, expanded.building.grows.node
      (expanded.steady.linked.allocated_of_isWithin shared.1 expanded.steady.isTop.allocated)]
  parent? shared := expanded.parent?_of_outside shared.1 shared.2
  above {id parent} shared held := by
    have linked := expanded.steady.linked
    have below := linked.isWithin_of_parent held
    refine ⟨linked.isWithin_root_of_above expanded.steady.isTop shared.1 below, ?_⟩
    rw [Bool.eq_false_iff]
    intro inside
    rw [linked.isWithin_trans below inside] at shared
    cases shared.2
  holds {id parent} part shared held := by
    have linked := expanded.steady.linked
    have allocated := linked.allocated_of_isWithin shared.1 expanded.steady.isTop.allocated
    rw [expanded.edited.holds (expanded.stays shared.1 shared.2), Tree.holds, Tree.holds,
      expanded.building.grows.node (linked.allocated_parent held)]

theorem isWithin_of_outside (attached : p.tree.isWithin id p.root = true)
    (outside : p.tree.isWithin id call = false) :
    after.tree.isWithin id outer = p.tree.isWithin id outer :=
  expanded.alike_after.isWithin expanded.steady.linked expanded.afterSteady.linked
    ⟨attached, outside⟩ outer

theorem isWithin_apart_iff (attached : p.tree.isWithin outer p.root = true)
    (apart : p.tree.isWithin call outer = false) (outside : p.tree.isWithin outer call = false) :
    after.tree.isWithin id outer = true ↔ p.tree.isWithin id outer = true := by
  have linked := expanded.steady.linked
  have afterLinked := expanded.afterSteady.linked
  have allocated := linked.allocated_of_isWithin attached expanded.steady.isTop.allocated
  constructor <;> intro within
  · have attachedAfter := expanded.attached_iff.mpr (.inl ⟨attached, outside⟩)
    rcases expanded.attached_iff.mp (afterLinked.isWithin_trans within attachedAfter) with
      stays | inside
    · rwa [expanded.isWithin_of_outside stays.1 stays.2] at within
    · rcases afterLinked.isWithin_linear within inside with around | around
      · rw [expanded.not_isWithin_value allocated] at around
        cases around
      · -- The instance would stand where the call did.
        have different : value ≠ outer := fun same => expanded.loose.new (same ▸ allocated)
        obtain ⟨parent, held, above⟩ := afterLinked.exists_parent_of_isWithin around different
        rw [expanded.place] at held
        have holds := linked.isWithin_of_parent held
        have parentOutside : p.tree.isWithin parent call = false := by
          rw [Bool.eq_false_iff]
          intro below
          exact linked.parent?_ne_self call (linked.isWithin_antisymm holds below ▸ held)
        have parentAttached := linked.isWithin_root_of_above expanded.steady.isTop
          expanded.attached holds
        rw [expanded.isWithin_of_outside parentAttached parentOutside] at above
        rw [linked.isWithin_trans holds above] at apart
        cases apart
  · refine (expanded.isWithin_of_outside (linked.isWithin_trans within attached) ?_).trans within
    rw [Bool.eq_false_iff]
    intro inside
    rcases linked.isWithin_linear within inside with around | around
    · rw [outside] at around
      cases around
    · rw [apart] at around
      cases around

/-- All nodes hold what they held, with the instance for the call. -/
theorem mirrors (allocated : p.tree.Allocated id) :
    (p.tree.node id).Mirrors (Node.exchange call value) (after.tree.node id) := by
  have swapped := expanded.edited.node id
  rw [expanded.building.grows.node allocated] at swapped
  exact .of_swapped swapped

theorem node_of_apart (apart : p.tree.isWithin call outer = false)
    (within : p.tree.isWithin id outer = true) (allocated : p.tree.Allocated id) :
    after.tree.node id = p.tree.node id := by
  have linked := expanded.steady.linked
  rw [expanded.edited.kept id, expanded.building.grows.node allocated]
  rw [expanded.building.grows.node allocated]
  intro held
  rw [linked.isWithin_trans (linked.isWithin_of_parent (linked.mem_children.mp held))
    within] at apart
  cases apart

theorem mem_declarationsAt (attached : p.tree.isWithin id p.root = true)
    (outside : p.tree.isWithin id call = false) (member : d ∈ p.tree.declarationsAt id)
    (apart : p.tree.isWithin d.identifier call = false) :
    d ∈ after.tree.declarationsAt id := by
  have linked := expanded.steady.linked
  have grows := expanded.building.grows
  have unchanged := grows.unchanged linked expanded.steady.isTop
  rw [← unchanged.declarationsAt linked grows.linked expanded.steady.isTop.top attached] at member
  have kept : d ∈ (grown.declarationsAt id).filter fun d => !grown.isWithin d.identifier call :=
    List.mem_filter.mpr ⟨member, by rw [grows.isWithin linked expanded.allocatedCall, apart]; rfl⟩
  rw [← expanded.edited.filter_declarationsAt grows.linked expanded.possible
    (expanded.stays attached outside)] at kept
  exact (List.mem_filter.mp kept).1

section Sealed

variable (isSealed : p.tree.Sealed call) (sealedValue : after.tree.Sealed value)

include isSealed

theorem confines_call : p.tree.Confines p.root call :=
  isSealed.confines expanded.steady.linked expanded.steady.isTop expanded.freeCall.notBinding
    expanded.plainCall

include sealedValue

omit isSealed in
theorem confines_value : after.tree.Confines after.root value :=
  sealedValue.confines expanded.afterSteady.linked expanded.afterSteady.isTop expanded.freeAfter
    expanded.plainAfter

theorem meaning?_of_outside (attached : p.tree.isWithin id p.root = true)
    (outside : p.tree.isWithin id call = false) :
    after.lexicon.meaning? id = p.lexicon.meaning? id := by
  have linked := expanded.steady.linked
  have isTop := expanded.steady.isTop
  have grows := expanded.building.grows
  have unchanged := grows.unchanged linked isTop
  have same := unchanged.lexicon_eq linked grows.linked isTop expanded.isTop.allocated
  rw [Program.lexicon, expanded.root, expanded.edited.meaning?_eq grows.linked expanded.possible
    expanded.isTop expanded.attachedGrown expanded.notRoot (expanded.stays attached outside), same]
  · intro n isNew
    rw [← expanded.root, ← Option.some.inj isNew]
    exact expanded.confines_value sealedValue
  · intro d means
    rw [same] at means
    rw [grows.isWithin linked expanded.allocatedCall]
    exact (expanded.confines_call isSealed).not_isWithin linked isTop outside means

theorem binder?_of_outside (allocated : p.tree.Allocated owner)
    (outside : p.tree.isWithin owner call = false) :
    after.lexicon.binder? owner name = p.lexicon.binder? owner name := by
  have linked := expanded.steady.linked
  have grownLinked := expanded.building.grows.linked
  have unchanged := expanded.building.grows.unchanged linked expanded.steady.isTop
  have declared :
      after.lexicon.declared.filter (fun d => !grown.isIncoming (some value) d.identifier) =
        p.lexicon.declared.filter fun d => !grown.isWithin d.identifier call := by
    rw [Program.lexicon, expanded.root, expanded.edited.filter_declared grownLinked
      expanded.possible expanded.isTop expanded.attachedGrown expanded.notRoot,
      unchanged.lexicon_eq linked grownLinked expanded.steady.isTop expanded.isTop.allocated]
  have first := Tree.find?_filter_of_imp (l := after.lexicon.declared)
    (fun d => !grown.isIncoming (some value) d.identifier)
    (fun d => d.owner = owner && d.name = name) fun d isDeclared isWanted => by
      rw [Bool.and_eq_true, decide_eq_true_eq] at isWanted
      rw [Tree.isIncoming_some, ← expanded.edited.isWithin_new grownLinked expanded.possible rfl,
        Bool.not_eq_true', Bool.eq_false_iff]
      intro within
      have ownerWithin := expanded.confines_value sealedValue d isDeclared within
      rw [isWanted.1, expanded.not_isWithin_value allocated] at ownerWithin
      cases ownerWithin
  have second := Tree.find?_filter_of_imp (l := p.lexicon.declared)
    (fun d => !grown.isWithin d.identifier call) (fun d => d.owner = owner && d.name = name)
    fun d isDeclared isWanted => by
      rw [Bool.and_eq_true, decide_eq_true_eq] at isWanted
      rw [expanded.building.grows.isWithin linked expanded.allocatedCall, Bool.not_eq_true',
        Bool.eq_false_iff]
      intro within
      have ownerWithin := expanded.confines_call isSealed d isDeclared within
      rw [isWanted.1, outside] at ownerWithin
      cases ownerWithin
  rw [Lexicon.binder?, ← first, declared, second, Lexicon.binder?]

theorem look?_of_scopes {places : List NodeId}
    (outside : ∀ owner ∈ places, p.tree.Allocated owner ∧ p.tree.isWithin owner call = false) :
    after.lexicon.look? places name = p.lexicon.look? places name := by
  rw [Lexicon.look?, Lexicon.look?]
  induction places with
  | nil => rfl
  | cons owner rest induction =>
    rw [List.forall_mem_cons] at outside
    rw [List.findSome?_cons, List.findSome?_cons,
      expanded.binder?_of_outside isSealed sealedValue outside.1.1 outside.1.2, induction outside.2]

omit sealedValue isSealed in
theorem outside_of_mem_ancestors (member : owner ∈ p.tree.ancestors call) :
    p.tree.Allocated owner ∧ p.tree.isWithin owner call = false := by
  have linked := expanded.steady.linked
  refine ⟨linked.allocated_of_mem_ancestors member, ?_⟩
  rw [Bool.eq_false_iff]
  intro within
  have same := linked.isWithin_antisymm within (Tree.isWithin_iff.mpr (.inr member))
  exact linked.notMem_ancestors call (same ▸ member)

theorem look?_outside (name : String) : after.lexicon.look? (after.tree.scopesAround value) name =
    p.lexicon.look? (p.tree.scopesAround call) name := by
  rw [expanded.scopes_value.1]
  exact expanded.look?_of_scopes isSealed sealedValue fun owner member =>
    expanded.outside_of_mem_ancestors (Tree.mem_scopesAround.mp member).1

theorem look?_of_outside (attached : p.tree.isWithin id p.root = true)
    (outside : p.tree.isWithin id call = false) :
    after.lexicon.look? (after.tree.beyond id) name = p.lexicon.look? (p.tree.beyond id) name := by
  have linked := expanded.steady.linked
  have alike := expanded.alike_after
  rw [alike.beyond linked expanded.afterSteady.linked ⟨attached, outside⟩]
  refine expanded.look?_of_scopes isSealed sealedValue fun owner member => ?_
  have shared := Tree.Alike.shared_of_mem_ancestors linked alike ⟨attached, outside⟩
    (linked.mem_beyond member).1
  exact ⟨linked.allocated_of_isWithin shared.1 expanded.steady.isTop.allocated, shared.2⟩

end Sealed

end Expanded

end Program

end Unravel
