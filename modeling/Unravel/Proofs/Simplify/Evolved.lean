import Mathlib.Logic.Relation
import Unravel.Proofs.Simplify.Orderly

/-!
The programs that are made of a tree that was built bottom up and then changed by new nodes, copies,
replacements, removals and rules (`Program.Evolved`). The links of their stores are intact: what the
parents say and what the children say is the same, nothing is held twice, nothing lies above itself,
and the attached nodes are those that the root reaches (`Program.Evolved.intact`).
-/

namespace Unravel

namespace Tree

variable {t : Tree} {root id : NodeId}

/--
The trees that are built bottom up. Every new node adopts different nodes that nothing holds yet. -/
inductive Assembled : Tree → Prop where
  | empty : Assembled .empty
  | alloc {t : Tree} (assembled : Assembled t) (node : Node NodeId)
      (free : ∀ child ∈ node.children, t.IsTop child) (distinct : node.children.Nodup) :
      Assembled (Tree.alloc node t).2

theorem linked_empty : Tree.empty.Linked where
  mem_children {parent child} := by
    rw [node_of_not_allocated (Nat.not_lt_zero _),
      Linked.parent?_of_not_allocated (Nat.not_lt_zero _)]
    simp [Node.children]
  nodup_children id := by
    rw [node_of_not_allocated (Nat.not_lt_zero _)]
    exact List.nodup_nil
  wellFounded := ⟨fun id => ⟨id, fun parent held => by
    rw [Linked.parent?_of_not_allocated (Nat.not_lt_zero _)] at held
    cases held⟩⟩

theorem Assembled.linked (assembled : t.Assembled) : t.Linked := by
  induction assembled with
  | empty => exact linked_empty
  | alloc _ node free distinct linked =>
    exact linked.alloc (fun child member => (free child member).allocated)
      (fun child member => (free child member).top) distinct

def heldIds (t : Tree) :
    List NodeId := (List.range t.size).flatMap fun index => (t.node ⟨index⟩).children

theorem Linked.nodup_heldIds (linked : t.Linked) : t.heldIds.Nodup := by
  refine List.nodup_flatMap.mpr ⟨fun index _ => linked.nodup_children ⟨index⟩, ?_⟩
  refine List.nodup_range.imp fun {a b} different child first second => different ?_
  have firstHeld := linked.mem_children.mp first
  rw [linked.mem_children.mp second, Option.some.injEq, NodeId.mk.injEq] at firstHeld
  exact firstHeld.symm

theorem Linked.isWithin_iff_reaches (linked : t.Linked) : t.isWithin id root = true ↔
    Relation.ReflTransGen (fun parent child => child ∈ (t.node parent).children) root id := by
  constructor
  · intro within
    induction id using linked.induction with
    | step id induction =>
      by_cases same : id = root
      · exact same ▸ .refl
      · obtain ⟨parent, held, parentWithin⟩ := linked.exists_parent_of_isWithin within same
        exact (induction parent held parentWithin).tail (linked.mem_children.mpr held)
  · intro reaches
    induction reaches with
    | refl => exact isWithin_self
    | tail _ member within =>
      exact linked.isWithin_trans (linked.isWithin_of_parent (linked.mem_children.mp member)) within

end Tree

namespace Program

variable {p : Program}

/-- The programs that are made of a tree that was built bottom up and then changed by allocating and
copying nodes, by replacements and removals, and by applying rules, whether these succeed or fail.
-/
inductive Evolved : Program → Prop where
  | made {t : Tree} {root : NodeId} {p : Program} (assembled : t.Assembled) (isTop : t.IsTop root)
      (made : ofTree t root = .ok p) : Evolved p
  | allocated {p : Program} (evolved : Evolved p) (node : Node NodeId)
      (free : ∀ child ∈ node.children, p.tree.IsTop child ∧ child ≠ p.root)
      (distinct : node.children.Nodup) :
      Evolved (p.allocate (Tree.alloc node)).2
  | copied {p : Program} (evolved : Evolved p) (id : NodeId) : Evolved (p.allocate (Tree.copy id)).2
  | replaced {p after : Program} {target replacement placed : NodeId} (evolved : Evolved p)
      (allocated : p.tree.Allocated replacement)
      (done : p.replace target replacement = .ok (placed, after)) :
      Evolved after
  | removed {p after : Program} {target : NodeId} (evolved : Evolved p)
      (done : p.remove target = .ok after) :
      Evolved after
  | simplified {p : Program} (evolved : Evolved p) (rule : Rule) (c : Context) :
      Evolved (rule.leaves c p)

theorem Evolved.rooted (evolved : p.Evolved) : p.Rooted := by
  induction evolved with
  | made assembled isTop made => exact (sound_of_ofTree assembled.linked isTop made).2.2.toRooted
  | allocated _ node free distinct rooted =>
    refine rooted.elsewhere rfl (rooted.linked.unchanged_alloc rooted.isTop free) ?_ ?_
    · exact rooted.linked.alloc (fun child member => (free child member).1.allocated)
        (fun child member => (free child member).1.top) distinct
    · exact Nat.le_trans (Nat.le_succ _) (Nat.le_of_eq (Tree.size_alloc ..).symm)
  | copied _ id rooted =>
    exact rooted.grow ((Tree.Assembly.start rooted.linked rooted.nonempty).copy id).grows
  | replaced _ allocated done rooted => exact (rooted.of_replace allocated done).1.rooted
  | removed _ done rooted => exact (rooted.of_remove done).1.rooted
  | simplified _ rule c rooted => exact (rule.follows_leaves c rooted).rooted

/-- However a program has evolved: a node is the parent of another one exactly if it lists it among
its children; no handle is held in two places; no node lies above itself; and the attached nodes are
those that the root reaches along children. -/
theorem Evolved.intact (evolved : p.Evolved) :
    (∀ parent child, p.tree.parent? child = some parent ↔ child ∈ (p.tree.node parent).children) ∧
      p.tree.heldIds.Nodup ∧
      (∀ id, ¬Relation.TransGen (fun parent child => p.tree.parent? child = some parent) id id) ∧
      ∀ id, p.isAttached id = true ↔
        Relation.ReflTransGen (fun parent child => child ∈ (p.tree.node parent).children)
          p.root id := by
  have rooted := evolved.rooted
  refine ⟨fun parent child => rooted.linked.mem_children.symm, rooted.linked.nodup_heldIds,
    rooted.linked.not_transGen_self, fun id => ?_⟩
  rw [isAttached_eq rooted.linked rooted.isTop.top, rooted.linked.isWithin_iff_reaches]

/-- The tree of `if (true) f();`. -/
def guardedCall : Tree :=
  [.literal (.boolean true), .identifier "f", .call ⟨1⟩ [], .expressionStatement ⟨2⟩,
    .if_ ⟨0⟩ ⟨3⟩ none, .program [⟨4⟩]].foldl (fun t node => (Tree.alloc node t).2) .empty

theorem assembled_guardedCall : guardedCall.Assembled := by
  have add {t : Tree} (assembled : t.Assembled) (node : Node NodeId)
      (free : ∀ child ∈ node.children, t.Allocated child ∧ t.parent? child = none)
      (distinct : node.children.Nodup) : (Tree.alloc node t).2.Assembled :=
    assembled.alloc node (fun child member => ⟨(free child member).1, (free child member).2⟩)
      distinct
  have leaves := add (add .empty (.literal (.boolean true)) (by decide) (by decide))
    (.identifier "f") (by decide) (by decide)
  have statement := add (add leaves (.call ⟨1⟩ []) (by decide) (by decide))
    (.expressionStatement ⟨2⟩) (by decide) (by decide)
  exact add (add statement (.if_ ⟨0⟩ ⟨3⟩ none) (by decide) (by decide)) (.program [⟨4⟩])
    (by decide) (by decide)

theorem exists_intact : ∃ p q, ofTree guardedCall ⟨5⟩ = .ok p ∧
    q = Rule.leaves .unusedDeclaration default (Rule.leaves .branchPruning default
      (p.allocate (Tree.copy ⟨2⟩)).2) ∧
    (∀ parent child, q.tree.parent? child = some parent ↔ child ∈ (q.tree.node parent).children) ∧
      q.tree.heldIds.Nodup ∧
      (∀ id, ¬Relation.TransGen (fun parent child => q.tree.parent? child = some parent) id id) ∧
      ∀ id, q.isAttached id = true ↔
        Relation.ReflTransGen (fun parent child => child ∈ (q.tree.node parent).children)
          q.root id := by
  have isTop : guardedCall.IsTop ⟨5⟩ := ⟨by decide, by decide⟩
  have shape : guardedCall.node ⟨5⟩ = .program [⟨4⟩] := rfl
  obtain ⟨scopes, made, -⟩ := exists_ofTree assembled_guardedCall.linked isTop shape
  have evolved := (((Evolved.made assembled_guardedCall isTop made).copied ⟨2⟩).simplified
    .branchPruning default).simplified .unusedDeclaration default
  exact ⟨_, _, made, rfl, Evolved.intact evolved⟩

end Program

end Unravel
