import Unravel.Proofs.Program.Reissued
import Unravel.Proofs.Program.Remnant
import Unravel.Proofs.Simplify.Planned
import Unravel.Proofs.Simplify.Surely
import Unravel.Proofs.Tree.Sorted
import Unravel.Simplify.Rule

/-!
Calls written with a dot, and what is left for a second run of the rule. Calls are visited from the
outside in, and the base of a call is copied to come before the dot: a call inside it is visited no
more, and its copy was not there to be listed. So the rule runs out after one run exactly if no call
that it can write with a dot lies in the base of another one (`Rule.dots_again_iff`).
-/

namespace Unravel

namespace DottedCall

variable {p q after : Program} {call callee base piece id inner outer : NodeId}
  {copyOf : NodeId → NodeId} {name : String} {grown : Tree} {calls rest : List NodeId}
  {changed : Bool} {c : Context}

/-! ### Calls that can be written with a dot -/

theorem plan?_eq_some_iff : plan? p call = some (callee, base, name) ↔ ∃ key arguments,
    p.node call = .call callee arguments ∧ p.node callee = .member base key true ∧
      (p.node key).string? = some name ∧ Source.isIdentifierName name = true := by
  refine ⟨of_plan?, ?_⟩
  rintro ⟨key, arguments, shape, memberShape, isKey, isName⟩
  simp only [plan?, shape, memberShape, isKey, isName, if_true]

theorem parent?_of_plan? (linked : p.tree.Linked)
    (planned : plan? p call = some (callee, base, name)) :
    p.tree.parent? callee = some call ∧ p.tree.parent? base = some callee := by
  obtain ⟨key, arguments, shape, memberShape, -⟩ := of_plan? planned
  constructor
  · refine linked.mem_children.mp ?_
    rw [show p.tree.node call = _ from shape]
    exact List.mem_cons_self ..
  · refine linked.mem_children.mp ?_
    rw [show p.tree.node callee = _ from memberShape]
    exact List.mem_cons_self ..

theorem isWithin_of_plan? (linked : p.tree.Linked)
    (planned : plan? p call = some (callee, base, name)) :
    p.tree.isWithin base call = true := by
  obtain ⟨isCallee, isBase⟩ := parent?_of_plan? linked planned
  exact linked.isWithin_trans (linked.isWithin_of_parent isBase)
    (linked.isWithin_of_parent isCallee)

theorem string?_map {α β : Type} (f : α → β) (n : Node α) : (n.map f).string? = n.string? := by
  cases n with
  | literal value => cases value <;> rfl
  | _ => simp [Node.map, Node.traverse, Node.string?]

theorem plan?_map {f : NodeId → NodeId} (here : q.node (f id) = (p.node id).map f)
    (isCallee : ∀ {callee arguments}, p.node id = .call callee arguments →
      q.node (f callee) = (p.node callee).map f)
    (isKey : ∀ {callee arguments base key}, p.node id = .call callee arguments →
      p.node callee = .member base key true → q.node (f key) = (p.node key).map f) :
    plan? q (f id) = (plan? p id).map fun found => (f found.1, f found.2.1, found.2.2) := by
  refine Option.ext fun (callee, base, name) => ?_
  simp only [Option.map_eq_some_iff, Prod.exists, Prod.mk.injEq, plan?_eq_some_iff]
  constructor
  · rintro ⟨key, arguments, shape, memberShape, named, isName⟩
    rw [here, Node.map_eq_call_iff] at shape
    obtain ⟨callee, arguments, shape, rfl, rfl⟩ := shape
    rw [isCallee shape, Node.map_eq_member_iff] at memberShape
    obtain ⟨base, key, memberShape, rfl, rfl⟩ := memberShape
    rw [isKey shape memberShape, string?_map] at named
    exact ⟨callee, base, name, ⟨key, arguments, shape, memberShape, named, isName⟩, rfl, rfl, rfl⟩
  · rintro ⟨callee, base, name, ⟨key, arguments, shape, memberShape, named, isName⟩, rfl, rfl, rfl⟩
    refine ⟨f key, arguments.map f, ?_, ?_, ?_, isName⟩
    · rw [here, shape, Node.map_eq_call_iff]
      exact ⟨callee, arguments, rfl, rfl, rfl⟩
    · rw [isCallee shape, memberShape, Node.map_eq_member_iff]
      exact ⟨base, key, rfl, rfl, rfl⟩
    · rw [isKey shape memberShape, string?_map, named]

structure IsDottable (p : Program) (call : NodeId) : Prop where
  attached : p.isAttached call = true
  planned : (plan? p call).isSome = true

/-- A call that can be written with a dot lies in the base of another one. -/
structure Nests (p : Program) (outer inner : NodeId) : Prop where
  attached : p.isAttached outer = true
  base : ∃ callee base name, plan? p outer = some (callee, base, name) ∧
    p.tree.isWithin inner base = true
  planned : (plan? p inner).isSome = true

/-! ### One call -/

/-- A call has been written with a dot: a new member, which holds a copy of the base, has taken the
place of the callee. -/
structure Dotting (p : Program) (call callee base piece : NodeId) (copyOf : NodeId → NodeId)
    (after : Program) :
    Prop where
  steady : p.Steady
  afterSteady : after.Steady
  attached : p.isAttached call = true
  planned : ∃ name, plan? p call = some (callee, base, name)
  leads : p.Leads after
  loses : p.Loses callee after
  isNew : ¬p.tree.Allocated piece
  node : ∀ {id}, p.tree.Allocated id → after.node id = (p.node id).map (Node.exchange callee piece)
  member : ∃ key, after.node piece = .member (copyOf base) key false
  copy : ∀ {id}, p.tree.isWithin id base = true → after.node (copyOf id) = (p.node id).map copyOf
  origin : ∀ {id}, ¬p.tree.Allocated id → after.tree.Allocated id → id = piece ∨
    (after.node id).isIdentifier = true ∨
    ∃ source, p.tree.isWithin source base = true ∧ copyOf source = id

namespace Dotting

variable (dotting : Dotting p call callee base piece copyOf after)

include dotting

theorem isDottable : IsDottable p call := by
  obtain ⟨name, planned⟩ := dotting.planned
  exact ⟨dotting.attached, by rw [planned]; rfl⟩

theorem parent?_callee : p.tree.parent? callee = some call := by
  obtain ⟨name, planned⟩ := dotting.planned
  exact (parent?_of_plan? dotting.steady.linked planned).1

theorem isMember : ∃ key, p.node callee = .member base key true ∧ (p.node key).children = [] := by
  obtain ⟨name, planned⟩ := dotting.planned
  obtain ⟨key, arguments, -, shape, isKey, -⟩ := of_plan? planned
  refine ⟨key, shape, ?_⟩
  cases found : p.node key <;> simp_all [Node.string?, Node.children]

theorem isAttached_eq (id : NodeId) : p.isAttached id = p.tree.isWithin id p.root :=
  Program.isAttached_eq dotting.steady.linked dotting.steady.isTop.top id

theorem isAttached_after (id : NodeId) : after.isAttached id = after.tree.isWithin id after.root :=
  Program.isAttached_eq dotting.afterSteady.linked dotting.afterSteady.isTop.top id

theorem allocated (attached : p.isAttached id = true) : p.tree.Allocated id :=
  dotting.steady.sound.rooted.allocated_of_isAttached attached

theorem keeps (attached : p.isAttached id = true) (outside : p.tree.isWithin id callee = false) :
    after.isAttached id = true ∧
    ∀ outer, after.tree.isWithin id outer = p.tree.isWithin id outer := by
  rw [dotting.isAttached_eq] at attached
  rw [dotting.isAttached_after]
  exact ⟨(dotting.loses.kept attached outside).1,
    fun outer => dotting.loses.isWithin_eq dotting.steady.linked dotting.afterSteady.linked
      dotting.steady.isTop attached outside⟩

theorem lost (allocated : p.tree.Allocated id) (attached : after.isAttached id = true) :
    p.isAttached id = true ∧ p.tree.isWithin id callee = false := by
  rw [dotting.isAttached_after] at attached
  rw [dotting.isAttached_eq]
  exact dotting.loses.lost allocated attached

theorem call_outside : p.tree.isWithin call callee = false := by
  rw [Bool.eq_false_iff]
  intro within
  have linked := dotting.steady.linked
  have same := linked.isWithin_antisymm within (linked.isWithin_of_parent dotting.parent?_callee)
  exact linked.parent?_ne_self callee (same ▸ dotting.parent?_callee)

theorem callShape : ∃ arguments, p.node call = .call callee arguments ∧
    after.node call = .call piece (arguments.map (Node.exchange callee piece)) := by
  obtain ⟨name, planned⟩ := dotting.planned
  obtain ⟨key, arguments, shape, -⟩ := of_plan? planned
  refine ⟨arguments, shape, ?_⟩
  rw [dotting.node (dotting.allocated dotting.attached), shape, Node.map_eq_call_iff]
  exact ⟨callee, arguments, rfl, if_pos rfl, rfl⟩

theorem parent?_piece : after.tree.parent? piece = some call := by
  obtain ⟨arguments, -, shape⟩ := dotting.callShape
  refine dotting.afterSteady.linked.mem_children.mp ?_
  rw [show after.tree.node call = _ from shape]
  exact List.mem_cons_self ..

theorem exchange_eq {parent : NodeId} (held : p.tree.parent? id = some parent)
    (different : parent ≠ call) :
    Node.exchange callee piece id = id := by
  refine Node.exchange_of_ne ?_
  rintro rfl
  exact different (Option.some.inj (held.symm.trans dotting.parent?_callee))

theorem plan?_of_ne (allocated : p.tree.Allocated id) (different : id ≠ call) :
    plan? after id = plan? p id := by
  have linked := dotting.steady.linked
  have kept (child parent : NodeId) (member : child ∈ (p.node parent).children)
      (notCall : parent ≠ call) :
      Node.exchange callee piece child = child ∧
        after.node child = (p.node child).map (Node.exchange callee piece) :=
    have held := linked.mem_children.mp member
    ⟨dotting.exchange_eq held notCall, dotting.node (Tree.allocated_of_parent? held)⟩
  have notCall {other base key : NodeId} (shape : p.node other = .member base key true) :
      other ≠ call := by
    rintro rfl
    obtain ⟨arguments, isCall, -⟩ := dotting.callShape
    rw [shape] at isCall
    cases isCall
  by_cases isCallee : id = callee
  · obtain ⟨key, shape, -⟩ := dotting.isMember
    have shapeAfter := dotting.node allocated
    rw [isCallee, shape] at shapeAfter
    simp only [isCallee, plan?, shape, shapeAfter]
    rfl
  · have mapped := plan?_map (p := p) (q := after) (f := Node.exchange callee piece)
      (by rw [Node.exchange_of_ne isCallee, dotting.node allocated])
      (fun {other arguments} shape => by
        obtain ⟨same, node⟩ := kept other id (by rw [shape]; exact List.mem_cons_self ..) different
        rw [same, node])
      (fun {other arguments base key} _ shape => by
        obtain ⟨same, node⟩ := kept key other (by rw [shape]; simp [Node.children]) (notCall shape)
        rw [same, node])
    rw [Node.exchange_of_ne isCallee] at mapped
    rw [mapped]
    cases planned : plan? p id with
    | none => rfl
    | some found =>
      obtain ⟨other, base, name⟩ := found
      obtain ⟨key, arguments, shape, memberShape, -⟩ := of_plan? planned
      have same := (kept other id (by rw [shape]; exact List.mem_cons_self ..) different).1
      have sameBase := (kept base other (by rw [memberShape]; exact List.mem_cons_self ..)
        (notCall memberShape)).1
      simp only [Option.map_some, same, sameBase]

theorem plan?_call : plan? after call = none := by
  obtain ⟨arguments, -, shape⟩ := dotting.callShape
  obtain ⟨key, member⟩ := dotting.member
  simp only [plan?, shape, member]

theorem plan?_copy (within : p.tree.isWithin id base = true) :
    plan? after (copyOf id) =
      (plan? p id).map fun found => (copyOf found.1, copyOf found.2.1, found.2.2) := by
  have below {child parent : NodeId} (within : p.tree.isWithin parent base = true)
      (member : child ∈ (p.node parent).children) : p.tree.isWithin child base = true :=
    Tree.Reissued.attached_child dotting.steady.linked within
      (dotting.steady.linked.mem_children.mp member)
  refine plan?_map (dotting.copy within) (fun shape => ?_) fun shape memberShape => ?_
  · exact dotting.copy (below within (by rw [shape]; exact List.mem_cons_self ..))
  · exact dotting.copy (below (below within (by rw [shape]; exact List.mem_cons_self ..))
      (by rw [memberShape]; simp [Node.children]))

/-! #### Calls afterwards -/

theorem exists_nests (isNew : ¬p.tree.Allocated id) (dottable : IsDottable after id) :
    ∃ inner, Nests p call inner := by
  have planned := dottable.planned
  rcases dotting.origin isNew
    (dotting.afterSteady.sound.rooted.allocated_of_isAttached dottable.attached) with
      rfl | isIdentifier | ⟨source, within, rfl⟩
  · obtain ⟨key, member⟩ := dotting.member
    simp [plan?, member] at planned
  · cases shape : after.node id <;> simp_all [plan?, Node.isIdentifier, Node.identifier?]
  · rw [dotting.plan?_copy within, Option.isSome_map] at planned
    obtain ⟨name, isPlan⟩ := dotting.planned
    exact ⟨source, dotting.attached, ⟨callee, base, name, isPlan, within⟩, planned⟩

theorem isDottable_before (allocated : p.tree.Allocated id) (dottable : IsDottable after id) :
    IsDottable p id ∧ id ≠ call := by
  have planned := dottable.planned
  have different : id ≠ call := by
    rintro rfl
    rw [dotting.plan?_call] at planned
    cases planned
  rw [dotting.plan?_of_ne allocated different] at planned
  exact ⟨⟨(dotting.lost allocated dottable.attached).1, planned⟩, different⟩

theorem isDottable_after (dottable : IsDottable p id) (different : id ≠ call)
    (outside : p.tree.isWithin id callee = false) : IsDottable after id where
  attached := (dotting.keeps dottable.attached outside).1
  planned := by
    rw [dotting.plan?_of_ne (dotting.allocated dottable.attached) different]
    exact dottable.planned

theorem isWithin_copy (within : p.tree.isWithin id base = true) :
    after.tree.isWithin (copyOf id) piece = true := by
  have linked := dotting.steady.linked
  have afterLinked := dotting.afterSteady.linked
  induction id using linked.induction with
  | step id induction =>
    by_cases same : id = base
    · obtain ⟨key, member⟩ := dotting.member
      refine afterLinked.isWithin_of_parent (afterLinked.mem_children.mp ?_)
      rw [same, show after.tree.node piece = _ from member]
      exact List.mem_cons_self ..
    · obtain ⟨parent, held, above⟩ := linked.exists_parent_of_isWithin within same
      refine afterLinked.isWithin_trans
        (afterLinked.isWithin_of_parent (afterLinked.mem_children.mp ?_))
        (induction parent held above)
      rw [show after.tree.node (copyOf parent) = _ from dotting.copy above, Node.children_map]
      exact List.mem_map_of_mem (linked.mem_children.mpr held)

theorem isDottable_copy (within : p.tree.isWithin id base = true)
    (planned : (plan? p id).isSome = true) :
    IsDottable after (copyOf id) where
  attached := by
    have linked := dotting.afterSteady.linked
    have callAttached := (dotting.keeps dotting.attached dotting.call_outside).1
    rw [dotting.isAttached_after] at callAttached ⊢
    exact linked.isWithin_trans (linked.isWithin_trans (dotting.isWithin_copy within)
      (linked.isWithin_of_parent dotting.parent?_piece)) callAttached
  planned := by
    rw [dotting.plan?_copy within, Option.isSome_map]
    exact planned

theorem copy_outside (allocated : p.tree.Allocated outer)
    (outside : p.tree.isWithin call outer = false) (dottable : IsDottable after (copyOf id))
    (within : p.tree.isWithin id base = true) :
    after.tree.isWithin (copyOf id) outer = false := by
  have afterLinked := dotting.afterSteady.linked
  rw [Bool.eq_false_iff]
  intro inside
  rcases afterLinked.isWithin_linear inside (dotting.isWithin_copy within) with above | above
  · -- What hangs below the new member is new.
    have attached := dottable.attached
    rw [dotting.isAttached_after] at attached
    have outerAttached : after.isAttached outer = true := by
      rw [dotting.isAttached_after]
      exact afterLinked.isWithin_root_of_above dotting.afterSteady.isTop attached inside
    obtain ⟨before, apart⟩ := dotting.lost allocated outerAttached
    rw [(dotting.keeps before apart).2] at above
    exact dotting.isNew (dotting.steady.linked.of_isWithin
      (fun _ held => dotting.steady.linked.allocated_parent held) allocated above)
  · have different : piece ≠ outer := by
      rintro rfl
      exact dotting.isNew allocated
    rw [afterLinked.isWithin_parent dotting.parent?_piece different,
      (dotting.keeps dotting.attached dotting.call_outside).2, outside] at above
    cases above

theorem isWithin_base (planned : (plan? p id).isSome = true)
    (within : p.tree.isWithin id callee = true) :
    p.tree.isWithin id base = true := by
  have linked := dotting.steady.linked
  obtain ⟨key, shape, isLeaf⟩ := dotting.isMember
  have isCall : ∃ other arguments, p.node id = .call other arguments := by
    obtain ⟨⟨other, base, name⟩, planned⟩ := Option.isSome_iff_exists.mp planned
    obtain ⟨-, arguments, isCall, -⟩ := of_plan? planned
    exact ⟨other, arguments, isCall⟩
  obtain ⟨other, arguments, isCall⟩ := isCall
  have different : id ≠ callee := by
    rintro rfl
    rw [shape] at isCall
    cases isCall
  obtain ⟨child, member, below⟩ := linked.exists_child within different
  rw [show p.tree.node callee = _ from shape] at member
  rcases List.mem_pair.mp member with rfl | rfl
  · exact below
  · -- The key is a string.
    by_cases same : id = child
    · rw [same] at isCall
      rw [isCall] at isLeaf
      cases isLeaf
    · obtain ⟨_, member, -⟩ := linked.exists_child below same
      rw [show (p.tree.node child).children = [] from isLeaf] at member
      cases member

end Dotting

theorem Nests.isDottable_outer (nests : Nests p outer inner) : IsDottable p outer := by
  obtain ⟨callee, base, name, planned, -⟩ := nests.base
  exact ⟨nests.attached, by rw [planned]; rfl⟩

theorem Nests.isDottable_inner (nests : Nests p outer inner) (steady : p.Steady) :
    IsDottable p inner where
  attached := by
    obtain ⟨callee, base, name, planned, within⟩ := nests.base
    have attached := nests.attached
    rw [Program.isAttached_eq steady.linked steady.isTop.top] at attached ⊢
    exact steady.linked.isWithin_trans within
      (steady.linked.isWithin_trans (isWithin_of_plan? steady.linked planned) attached)
  planned := nests.planned

theorem Dotting.nests_before (dotting : Dotting p call callee base piece copyOf after)
    (alone : ∀ inner, ¬Nests p call inner) (nests : Nests after outer inner) :
    Nests p outer inner := by
  have isOld {id : NodeId} (dottable : IsDottable after id) : p.tree.Allocated id := by
    by_contra isNew
    obtain ⟨source, nested⟩ := dotting.exists_nests isNew dottable
    exact alone source nested
  have outerAllocated := isOld nests.isDottable_outer
  obtain ⟨outerBefore, different⟩ := dotting.isDottable_before outerAllocated nests.isDottable_outer
  have innerAfter := nests.isDottable_inner dotting.afterSteady
  have innerAllocated := isOld innerAfter
  obtain ⟨innerBefore, -⟩ := dotting.isDottable_before innerAllocated innerAfter
  obtain ⟨otherCallee, otherBase, name, planned, within⟩ := nests.base
  obtain ⟨attached, outside⟩ := dotting.lost innerAllocated innerAfter.attached
  rw [(dotting.keeps attached outside).2] at within
  rw [dotting.plan?_of_ne outerAllocated different] at planned
  exact ⟨outerBefore.attached, ⟨otherCallee, otherBase, name, planned, within⟩, innerBefore.planned⟩

/-- Nesting outlasts the writing of an earlier call unless it is the inner call that is copied. -/
theorem Dotting.nests_after (dotting : Dotting p call callee base piece copyOf after)
    (nests : Nests p outer inner) (different : outer ≠ call)
    (earlier : p.tree.isWithin call outer = false)
    (outside : p.tree.isWithin outer callee = false) : Nests after outer inner := by
  have linked := dotting.steady.linked
  obtain ⟨otherCallee, otherBase, name, planned, within⟩ := nests.base
  have inOuter := linked.isWithin_trans within (isWithin_of_plan? linked planned)
  have innerBefore := nests.isDottable_inner dotting.steady
  have innerOutside : p.tree.isWithin inner callee = false := by
    rw [Bool.eq_false_iff]
    intro inside
    rcases linked.isWithin_linear inOuter inside with above | above
    · rw [outside] at above
      cases above
    · by_cases same : callee = outer
      · rw [same, Tree.isWithin_self] at outside
        cases outside
      · rw [linked.isWithin_parent dotting.parent?_callee same, earlier] at above
        cases above
  have innerDifferent : inner ≠ call := by
    rintro rfl
    rw [inOuter] at earlier
    cases earlier
  refine ⟨(dotting.keeps nests.attached outside).1, ⟨otherCallee, otherBase, name, ?_, ?_⟩,
    (dotting.isDottable_after innerBefore innerDifferent innerOutside).planned⟩
  · rw [dotting.plan?_of_ne (dotting.allocated nests.attached) different, planned]
  · rw [(dotting.keeps innerBefore.attached innerOutside).2, within]

/-- What a sweep over some calls is bound to leave: a call that can be written with a dot and hangs
below none of them, or one in the base of one of them, which will be copied to such a place. -/
inductive Leaves (p : Program) (calls : List NodeId) : Prop
  | apart {id : NodeId} (dottable : IsDottable p id)
      (outside : ∀ call ∈ calls, p.tree.isWithin id call = false)
  | nested {outer inner : NodeId} (member : outer ∈ calls) (nests : Nests p outer inner)

theorem Leaves.skip (leaves : Leaves p (call :: rest)) (idle : ¬IsDottable p call) :
    Leaves p rest := by
  cases leaves with
  | apart dottable outside => exact .apart dottable (List.forall_mem_cons.mp outside).2
  | @nested outer inner member nests =>
    refine .nested ((List.mem_cons.mp member).resolve_left ?_) nests
    rintro rfl
    exact idle nests.isDottable_outer

theorem Dotting.leaves_after (dotting : Dotting p call callee base piece copyOf after)
    (leaves : Leaves p (call :: rest)) (allocated : ∀ other ∈ rest, p.tree.Allocated other)
    (apart : ∀ other ∈ rest, p.tree.isWithin call other = false) : Leaves after rest := by
  have linked := dotting.steady.linked
  have copied {id : NodeId} (within : p.tree.isWithin id base = true)
      (planned : (plan? p id).isSome = true) :
      Leaves after rest :=
    have dottable := dotting.isDottable_copy within planned
    .apart dottable fun other member =>
      dotting.copy_outside (allocated other member) (apart other member) dottable within
  cases leaves with
  | @apart id dottable outside =>
    obtain ⟨notCall, below⟩ := List.forall_mem_cons.mp outside
    have notCallee : p.tree.isWithin id callee = false := by
      rw [Bool.eq_false_iff]
      intro inside
      rw [linked.isWithin_trans inside (linked.isWithin_of_parent dotting.parent?_callee)]
        at notCall
      cases notCall
    have different : id ≠ call := by
      rintro rfl
      rw [Tree.isWithin_self] at notCall
      cases notCall
    refine .apart (dotting.isDottable_after dottable different notCallee) fun other isLater => ?_
    rw [(dotting.keeps dottable.attached notCallee).2]
    exact below other isLater
  | @nested outer inner member nests =>
    rcases List.mem_cons.mp member with rfl | isLater
    · -- It is the turn of the outer call.
      obtain ⟨name, planned⟩ := dotting.planned
      obtain ⟨otherCallee, otherBase, otherName, same, within⟩ := nests.base
      rw [planned, Option.some.injEq, Prod.mk.injEq, Prod.mk.injEq] at same
      obtain ⟨-, rfl, -⟩ := same
      exact copied within nests.planned
    · cases outside : p.tree.isWithin outer callee with
      | true =>
        have planned := nests.isDottable_outer.planned
        exact copied (dotting.isWithin_base planned outside) planned
      | false =>
        have different : outer ≠ call := by
          rintro rfl
          have notSelf := apart _ isLater
          rw [Tree.isWithin_self] at notSelf
          cases notSelf
        exact .nested isLater (dotting.nests_after nests different (apart _ isLater) outside)

/-! ### A run -/

/--
Calls are met one after the other: those that can be written with a dot are, and the others stay. -/
inductive Sweep : List NodeId → Program → Program → Bool → Prop
  | done {p : Program} : Sweep [] p p false
  | skip {call : NodeId} {rest : List NodeId} {p q : Program} {changed : Bool}
      (idle : ¬IsDottable p call) (sweep : Sweep rest p q changed) :
      Sweep (call :: rest) p q changed
  | write {call callee base piece : NodeId} {copyOf : NodeId → NodeId} {rest : List NodeId}
      {p mid q : Program} {changed : Bool} (dotting : Dotting p call callee base piece copyOf mid)
      (sweep : Sweep rest mid q changed) :
      Sweep (call :: rest) p q true

namespace Sweep

variable (sweep : Sweep calls p q changed)

include sweep

/-- A sweep that reports no change has made none, and it has met nothing to write with a dot. -/
theorem unchanged (same : changed = false) : q = p ∧ ∀ call ∈ calls, ¬IsDottable p call := by
  induction sweep with
  | done => exact ⟨rfl, by simp⟩
  | skip idle _ induction =>
    obtain ⟨unchanged, others⟩ := induction same
    exact ⟨unchanged, List.forall_mem_cons.mpr ⟨idle, others⟩⟩
  | write => cases same

theorem idle (nothing : ∀ id, ¬IsDottable p id) : changed = false := by
  induction sweep with
  | done => rfl
  | skip _ _ induction => exact induction nothing
  | write dotting => exact absurd dotting.isDottable (nothing _)

/-- Without nesting, a sweep over all calls that can be written with a dot leaves none. -/
theorem settled (alone : ∀ outer inner, ¬Nests p outer inner)
    (covered : ∀ id, IsDottable p id → id ∈ calls) :
    ∀ id, ¬IsDottable q id := by
  induction sweep with
  | done => exact fun id dottable => List.not_mem_nil (covered id dottable)
  | skip idle _ induction =>
    refine induction alone
      fun id dottable => (List.mem_cons.mp (covered id dottable)).resolve_left ?_
    rintro rfl
    exact idle dottable
  | @write call _ _ _ _ _ p _ _ _ dotting _ induction =>
    refine induction (fun outer inner nests =>
      alone outer inner (dotting.nests_before (alone call) nests)) fun id dottable => ?_
    have allocated : p.tree.Allocated id := by
      by_contra isNew
      obtain ⟨inner, nests⟩ := dotting.exists_nests isNew dottable
      exact alone call inner nests
    obtain ⟨before, different⟩ := dotting.isDottable_before allocated dottable
    exact (List.mem_cons.mp (covered id before)).resolve_left different

theorem leftover (allocated : ∀ call ∈ calls, p.tree.Allocated call)
    (ordered : calls.Pairwise fun a b => p.isAttached a = true → p.tree.isWithin a b = false)
    (leaves : Leaves p calls) : ∃ id, IsDottable q id := by
  induction sweep with
  | done =>
    cases leaves with
    | apart dottable _ => exact ⟨_, dottable⟩
    | nested member _ => cases member
  | skip idle _ induction =>
    exact induction (List.forall_mem_cons.mp allocated).2 (List.pairwise_cons.mp ordered).2
      (leaves.skip idle)
  | write dotting _ induction =>
    obtain ⟨-, later⟩ := List.forall_mem_cons.mp allocated
    obtain ⟨first, ordered⟩ := List.pairwise_cons.mp ordered
    refine induction (fun other member => dotting.leads.allocated (later other member))
      (ordered.imp_of_mem fun {a b} aMember _ apart attached => ?_)
      (dotting.leaves_after leaves later fun other member => first other member dotting.attached)
    obtain ⟨before, outside⟩ := dotting.lost (later a aMember) attached
    rw [(dotting.keeps before outside).2]
    exact apart before

end Sweep

/--
Building a member with a copy of a base: its nodes are the member, the name after the dot and the
copies. -/
theorem exists_copied (linked : p.tree.Linked) (nonempty : p.tree.size ≠ 0) (base : NodeId)
    (name : String)
    (isPiece : (do Tree.dotMember (← Tree.copy base) name : StateM Tree NodeId) p.tree =
      (piece, grown)) :
    ∃ copyOf, (∃ key, grown.node piece = .member (copyOf base) key false) ∧
      (∀ {id}, p.tree.isWithin id base = true →
        ¬p.tree.Allocated (copyOf id) ∧ grown.node (copyOf id) = (p.node id).map copyOf) ∧
      ∀ {id}, ¬p.tree.Allocated id → grown.Allocated id →
      id = piece ∨ (grown.node id).isIdentifier = true ∨
        ∃ source, p.tree.isWithin source base = true ∧ copyOf source = id := by
  obtain ⟨copied, isCopy⟩ := linked.copied nonempty base
  have made : (piece, grown) = Tree.dotMember (Tree.copyMapped base p.tree).1.1 name
      (Tree.copyMapped base p.tree).2 :=
    isPiece.symm
  rw [isCopy] at made
  generalize (Tree.copyMapped base p.tree).1.2.of = copyOf at copied made
  generalize (Tree.copyMapped base p.tree).2 = mid at copied made
  set named := (Tree.alloc (.identifier name) mid).2 with isNamed
  set key := (Tree.alloc (.identifier name) mid).1 with isKey
  obtain ⟨rfl, rfl⟩ : piece = (Tree.alloc (.member (copyOf base) key false) named).1 ∧
      grown = (Tree.alloc (.member (copyOf base) key false) named).2 := Prod.mk.inj made
  have kept {id : NodeId} (allocated : mid.Allocated id) :
      (Tree.alloc (.member (copyOf base) key false) named).2.node id = mid.node id := by
    rw [Tree.node_alloc_of_allocated (Tree.allocated_alloc.mpr (.inl allocated)),
      Tree.node_alloc_of_allocated allocated]
  refine ⟨copyOf, ⟨key, ?_⟩, fun {id} within => ?_, fun {id} isNew allocated => ?_⟩
  · rw [Tree.node_alloc]
    exact if_pos rfl
  · obtain ⟨isNew, isAllocated⟩ := copied.new id within
    exact ⟨isNew, (kept isAllocated).trans (copied.node id within)⟩
  · rcases Tree.allocated_alloc.mp allocated with allocated | isNext
    · rcases Tree.allocated_alloc.mp allocated with isCopied | isNext
      · obtain ⟨source, within, rfl⟩ := copied.all id isNew isCopied
        exact .inr (.inr ⟨source, within, rfl⟩)
      · refine .inr (.inl ?_)
        rw [Tree.node_alloc_of_allocated allocated, isNext, isNamed, Tree.node_alloc, if_pos rfl]
        rfl
    · exact .inl isNext

theorem exists_dotting (steady : p.Steady) (attached : p.isAttached call = true)
    (planned : plan? p call = some (callee, base, name)) (c : Context) : ∃ piece copyOf after c',
      step call ⟨p, c⟩ = .ok true ⟨after, c'⟩ ∧ Dotting p call callee base piece copyOf after := by
  have linked := steady.linked
  obtain ⟨key, -, -, shape, -⟩ := of_plan? planned
  have isCallee := (parent?_of_plan? linked planned).1
  have within : p.tree.isWithin callee p.root = true := by
    rw [Program.isAttached_eq linked steady.isTop.top] at attached
    exact linked.isWithin_trans (linked.isWithin_of_parent isCallee) attached
  have building :=
    (Tree.Makes.bind (Tree.makes_copy base) fun copy => Tree.makes_dotMember copy name) p.tree []
      p.tree (.start linked steady.wellBound steady.nonempty)
  obtain ⟨⟨piece, grown⟩, isPiece⟩ : ∃ made,
    (do Tree.dotMember (← Tree.copy base) name : StateM Tree NodeId) p.tree = made := ⟨_, rfl⟩
  rw [isPiece] at building
  obtain ⟨copyOf, member, copies, origin⟩ := exists_copied linked steady.nonempty base name isPiece
  have grows := building.grows
  have loose := building.loose piece (List.mem_cons_self ..)
  obtain ⟨grownSteady, grownLeads⟩ := steady.grow building
  -- The piece takes the place of the callee.
  have calleeAllocated := Tree.allocated_of_parent? isCallee
  have shapeGrown : Program.node { p with tree := grown } callee = .member base key true :=
    (grows.node calleeAllocated).trans shape
  have notStatement : (Program.node { p with tree := grown } callee).isStatement = false := by
    rw [shapeGrown]
    rfl
  have free : Program.Free { p with tree := grown } callee :=
    .of_isPlain grownSteady (by rw [shapeGrown]; rfl)
  have notRoot : callee ≠ p.root := steady.ne_root fun body isProgram => by
    rw [shape] at isProgram
    cases isProgram
  obtain ⟨after, done, -⟩ := Program.Keeps.replace grownSteady.sound loose.allocated
    (steady.replaceable building within notRoot)
  have replaced := Program.Replaced.of_replace grownSteady.sound loose.allocated done
  obtain ⟨afterSteady, leads⟩ := grownSteady.replace loose.allocated free.notBinding
    free.notDeclaring done
  have exchanged := grownSteady.node_replace notStatement loose.allocated done
  have afterNode {id : NodeId} (isNew : ¬p.tree.Allocated id) : after.node id = grown.node id := by
    rw [exchanged id, show Program.node { p with tree := grown } id = grown.node id from rfl]
    conv_rhs => rw [← Node.map_self (grown.node id)]
    refine Node.map_congr_of_children fun child isChild => Node.exchange_of_ne ?_
    rintro rfl
    have held := grows.linked.mem_children.mp isChild
    rw [grows.parent? calleeAllocated, isCallee, Option.some.injEq] at held
    exact isNew (held ▸ linked.allocated_parent isCallee)
  obtain ⟨c', recorded⟩ := SimplifyM.replaceAndRecord_eq (c := c) .callNormalized "" done
  refine ⟨piece, copyOf, after, c', ?_, ?_⟩
  · rw [step, SimplifyM.program_bind]
    dsimp only
    rw [planned]
    dsimp only
    rw [SimplifyM.build_bind]
    dsimp only
    rw [isPiece]
    exact SimplifyM.bind_of_ok _ recorded
  · refine ⟨steady, afterSteady, attached, ⟨name, planned⟩, grownLeads.trans leads,
      replaced.loses linked steady.isTop grows loose.new, loose.new, fun {id} allocated => ?_, ?_,
      fun {id} within => ?_, fun {id} isNew allocated => ?_⟩
    · rw [exchanged id]
      exact congrArg _ (grows.node allocated)
    · rw [afterNode loose.new]
      exact member
    · obtain ⟨isNew, node⟩ := copies within
      rw [afterNode isNew, node]
    · rw [afterNode isNew]
      have edited := replaced.placed.edited
      rw [Program.unwrap_of_not_statement notStatement] at edited
      exact origin isNew (edited.allocated.mp allocated)

theorem exists_sweep (calls : List NodeId) (steady : p.Steady) (c : Context) : ∃ changed w,
    SimplifyM.anyChange calls (fun call => SimplifyM.ifAttached call (step call)) ⟨p, c⟩ =
      .ok changed w ∧
      w.program.Steady ∧ Sweep calls p w.program changed := by
  induction calls generalizing p c with
  | nil => exact ⟨false, ⟨p, c⟩, rfl, steady, .done⟩
  | cons call rest induction =>
    rw [SimplifyM.anyChange_cons]
    by_cases dottable : IsDottable p call
    · obtain ⟨⟨callee, base, name⟩, planned⟩ := Option.isSome_iff_exists.mp dottable.planned
      obtain ⟨piece, copyOf, after, c', stepped, dotting⟩ := exists_dotting steady
        dottable.attached planned c
      obtain ⟨changed, w, ran, last, sweep⟩ := induction dotting.afterSteady c'
      have first : SimplifyM.ifAttached call (step call) ⟨p, c⟩ = .ok true ⟨after, c'⟩ := by
        rw [SimplifyM.ifAttached, SimplifyM.program_bind, if_pos dottable.attached, stepped]
      refine ⟨true, w, ?_, last, .write dotting sweep⟩
      rw [SimplifyM.bind_of_ok _ first, SimplifyM.bind_of_ok _ ran]
      rfl
    · obtain ⟨changed, w, ran, last, sweep⟩ := induction steady c
      have first : SimplifyM.ifAttached call (step call) ⟨p, c⟩ = .ok false ⟨p, c⟩ := by
        rw [SimplifyM.ifAttached, SimplifyM.program_bind]
        split
        · rename_i attached
          have nothing : plan? p call = none := by
            rw [← Option.not_isSome_iff_eq_none]
            exact fun planned => dottable ⟨attached, planned⟩
          rw [step, SimplifyM.program_bind]
          dsimp only
          rw [nothing]
          rfl
        · rfl
      refine ⟨changed, w, ?_, last, .skip dottable sweep⟩
      rw [SimplifyM.bind_of_ok _ first, SimplifyM.bind_of_ok _ ran]
      rfl

theorem exists_run (steady : p.Steady) (c : Context) : ∃ changed w, run ⟨p, c⟩ = .ok changed w ∧
    w.program.Steady ∧ Sweep (p.nodes.filter fun id => isCall (p.node id)) p w.program changed :=
  exists_sweep _ steady c

theorem IsDottable.mem_calls (dottable : IsDottable p id) (steady : p.Steady) :
    id ∈ p.nodes.filter fun id => isCall (p.node id) := by
  obtain ⟨⟨callee, base, name⟩, planned⟩ := Option.isSome_iff_exists.mp dottable.planned
  obtain ⟨key, arguments, shape, -⟩ := of_plan? planned
  refine List.mem_filter.mpr ⟨(steady.linked.mem_descendants_iff steady.isTop.allocated).mpr ?_,
    by rw [shape]; rfl⟩
  rw [← Program.isAttached_eq steady.linked steady.isTop.top]
  exact dottable.attached

theorem Sweep.exists_isDottable_iff (steady : p.Steady)
    (sweep : Sweep (p.nodes.filter fun id => isCall (p.node id)) p q changed) :
    (∃ id, IsDottable q id) ↔ ∃ outer inner, Nests p outer inner := by
  have linked := steady.linked
  have isTop := steady.isTop
  constructor
  · rintro ⟨id, dottable⟩
    by_contra alone
    simp only [not_exists] at alone
    exact sweep.settled alone (fun id before => before.mem_calls steady) id dottable
  · rintro ⟨outer, inner, nests⟩
    have listed := nests.isDottable_outer.mem_calls steady
    refine sweep.leftover (fun call member => ?_) ?_ (.nested listed nests)
    · have within := (linked.mem_descendants_iff isTop.allocated).mp (List.mem_filter.mp member).1
      exact linked.allocated_of_isWithin within isTop.allocated
    · refine List.Pairwise.imp (fun apart _ => ?_)
        ((linked.pairwise_descendants isTop.allocated).filter _)
      exact apart

theorem Sweep.changed_iff (steady : p.Steady)
    (sweep : Sweep (p.nodes.filter fun id => isCall (p.node id)) p q changed) :
    changed = true ↔ ∃ id, IsDottable p id := by
  constructor
  · intro isChanged
    by_contra nothing
    rw [sweep.idle (not_exists.mp nothing)] at isChanged
    cases isChanged
  · rintro ⟨id, dottable⟩
    by_contra same
    exact (sweep.unchanged (Bool.eq_false_iff.mpr same)).2 id (dottable.mem_calls steady) dottable

end DottedCall

open DottedCall

/-- The rule that writes calls with a dot does not fail, and a second run right after the first one
reports a change exactly if a call that it can write with a dot lies in the base of another one. If
it reports none, it makes none. -/
theorem Rule.dots_again_iff {p : Program} (reached : p.Reached) (verified : p.verify = .ok ())
    (wellBound : p.tree.WellBound) (c c' : Context) : ∃ changed w again w',
      Rule.run .computedCall ⟨p, c⟩ = .ok changed w ∧ Rule.run .computedCall ⟨w.program, c'⟩ =
        .ok again w' ∧
        (changed = true ↔ ∃ call, IsDottable p call) ∧
        (again = true ↔ ∃ outer inner, Nests p outer inner) ∧
        (again = false → w'.program = w.program) := by
  have steady : p.Steady := ⟨reached.sound verified, wellBound⟩
  obtain ⟨changed, w, ran, mid, sweep⟩ := exists_run steady c
  obtain ⟨again, w', ranAgain, -, second⟩ := exists_run mid c'
  refine ⟨changed, w, again, w', ran, ranAgain, sweep.changed_iff steady, ?_,
    fun same => (second.unchanged same).1⟩
  rw [second.changed_iff mid, sweep.exists_isDottable_iff steady]

/-- The tree of `a["x"]()["y"]();`. -/
def DottedCall.chained : Tree :=
  ⟨#[⟨.identifier "a", some ⟨2⟩⟩, ⟨.literal (.string "x" none), some ⟨2⟩⟩,
    ⟨.member ⟨0⟩ ⟨1⟩ true, some ⟨3⟩⟩, ⟨.call ⟨2⟩ [], some ⟨5⟩⟩,
    ⟨.literal (.string "y" none), some ⟨5⟩⟩, ⟨.member ⟨3⟩ ⟨4⟩ true, some ⟨6⟩⟩,
    ⟨.call ⟨5⟩ [], some ⟨7⟩⟩, ⟨.expressionStatement ⟨6⟩, some ⟨8⟩⟩, ⟨.program [⟨7⟩], none⟩]⟩

theorem DottedCall.exists_chained : ∃ p, Program.ofTree chained ⟨8⟩ = .ok p ∧ p.Reached ∧ p.Steady ∧
    Nests p ⟨6⟩ ⟨3⟩ := by
  have linked : chained.Linked := Tree.linked_of_checks (by decide)
  have isTop : chained.IsTop ⟨8⟩ := ⟨by decide, by decide⟩
  obtain ⟨scopes, made, steady⟩ := Program.exists_steady chained ⟨8⟩ linked isTop
    (Tree.wellBound_of_bindsWell (by decide)) rfl
  have nests : Nests ⟨chained, ⟨8⟩, scopes, false⟩ ⟨6⟩ ⟨3⟩ := ⟨rfl, ⟨⟨5⟩, ⟨3⟩, "y", rfl, rfl⟩, rfl⟩
  exact ⟨_, made, .made linked isTop made, steady, nests⟩

theorem Rule.exists_dots_again :
    ∃ p, Program.ofTree chained ⟨8⟩ = .ok p ∧ p.Reached ∧ p.verify = .ok () ∧
      p.tree.WellBound ∧ ∃ changed w again w', Rule.run .computedCall ⟨p, default⟩ = .ok changed w ∧
        Rule.run .computedCall ⟨w.program, default⟩ = .ok again w' ∧ changed = true ∧
          again = true := by
  obtain ⟨p, made, reached, steady, nests⟩ := exists_chained
  obtain ⟨changed, w, again, w', ran, ranAgain, isChanged, isAgain, -⟩ :=
    dots_again_iff reached steady.sound.verify steady.wellBound default default
  exact ⟨p, made, reached, steady.sound.verify, steady.wellBound, changed, w, again, w',
    ran, ranAgain, isChanged.mpr ⟨_, nests.isDottable_outer⟩, isAgain.mpr ⟨_, _, nests⟩⟩

/-- The call in the base of another one is written with a dot by the second run only. -/
theorem Rule.exists_dots_twice : ∃ p w w', Program.ofTree chained ⟨8⟩ = .ok p ∧
    Rule.run .computedCall ⟨p, default⟩ = .ok true w ∧ Rule.run .computedCall ⟨w.program, default⟩ =
      .ok true w' := by
  obtain ⟨p, made, -, steady, nests⟩ := exists_chained
  obtain ⟨changed, w, ran, mid, sweep⟩ := exists_run steady default
  obtain ⟨again, w', ranAgain, -, second⟩ := exists_run mid default
  obtain rfl := (sweep.changed_iff steady).mpr ⟨_, nests.isDottable_outer⟩
  obtain rfl := (second.changed_iff mid).mpr ((sweep.exists_isDottable_iff steady).mpr
    ⟨_, _, nests⟩)
  exact ⟨p, w, w', made, ran, ranAgain⟩

end Unravel
