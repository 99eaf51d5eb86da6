import Unravel.Proofs.Scope.Build
import Unravel.Proofs.Tree.Weight

/-!
What new pieces weigh. An action that makes pieces out of others adds at most a certain weight
(`Tree.Adds`): nodes that it allocates add what their tags cost, and copies what they are copies of.
-/

namespace Unravel.Tree

variable {M : Type} [AddCommMonoid M] [LinearOrder M] {t mid after : Tree} {W : Weighing M}
  {held used : List NodeId} {id : NodeId} {α β : Type} {made : α → List NodeId}
  {made' : β → List NodeId} {action : StateM Tree α} {a b : M}

/-- The nodes of a store stay what they are, but may come to be held by new ones. -/
structure Extends (t after : Tree) : Prop where
  size : t.size ≤ after.size
  node : ∀ {id}, t.Allocated id → after.node id = t.node id

namespace Extends

theorem refl (t : Tree) : t.Extends t := ⟨Nat.le_refl _, fun _ => rfl⟩

theorem trans (first : t.Extends mid) (second : mid.Extends after) : t.Extends after where
  size := Nat.le_trans first.size second.size
  node isAllocated := by rw [second.node (Nat.lt_of_lt_of_le isAllocated first.size),
    first.node isAllocated]

theorem alloc (node : Node NodeId) (t : Tree) : t.Extends (Tree.alloc node t).2 where
  size := by
    rw [size_alloc]
    exact Nat.le_succ _
  node isAllocated := by
    rw [node_alloc, if_neg]
    rintro rfl
    exact t.not_allocated_next isAllocated

theorem weight_eq (further : t.Extends after) (linked : t.Linked) (afterLinked : after.Linked)
    (allocated : t.Allocated id) : after.weight W id = t.weight W id := by
  refine linked.weight_of_copy afterLinked (fun other => other) allocated fun other within => ?_
  have isAllocated := linked.allocated_of_isWithin within allocated
  refine ⟨Nat.lt_of_lt_of_le isAllocated further.size, ?_⟩
  rw [further.node isAllocated, List.map_id']
  exact ⟨rfl, rfl⟩

end Extends

theorem Grows.toExtends (grows : t.Grows after) : t.Extends after := ⟨grows.size, grows.node⟩

def weights (t : Tree) (W : Weighing M) (ids : List NodeId) : M := (ids.map (t.weight W)).sum

theorem weights_append (t : Tree) (W : Weighing M) (first second : List NodeId) :
    t.weights W (first ++ second) = t.weights W first + t.weights W second := by
  rw [weights, List.map_append, List.sum_append]
  rfl

theorem weights_perm {ids others : List NodeId} (same : ids.Perm others) :
    t.weights W ids = t.weights W others :=
  (same.map (t.weight W)).sum_eq

/-- In the course of building on a store, an action makes pieces that weigh at most so much more
than those that it uses up. -/
structure Adds (t : Tree) (W : Weighing M) (used : List NodeId) (made : α → List NodeId)
    (action : StateM Tree α) (bound : M) : Prop where
  makes : Makes used made action
  kept : ∀ {held mid}, t.Building (used ++ held) mid → mid.Extends (action mid).2
  weights_le : ∀ {held mid}, t.Building (used ++ held) mid →
    (action mid).2.weights W (made (action mid).1) ≤ bound + mid.weights W used

namespace Adds

theorem pure {result : α} (same : used.Perm (made result)) :
    t.Adds W used made (pure result) 0 where
  makes := .pure same
  kept _ := .refl _
  weights_le _ := by
    rw [zero_add]
    exact le_of_eq (weights_perm same).symm

theorem perm (adds : t.Adds W used made action a) {used' : List NodeId} (same : used'.Perm used) :
    t.Adds W used' made action a where
  makes := adds.makes.perm same
  kept building := adds.kept (building.perm (same.append_right _))
  weights_le building := by
    rw [weights_perm same]
    exact adds.weights_le (building.perm (same.append_right _))

theorem mono [IsOrderedCancelAddMonoid M] (adds : t.Adds W used made action a) (le : a ≤ b) :
    t.Adds W used made action b where
  makes := adds.makes
  kept := adds.kept
  weights_le building := (adds.weights_le building).trans (add_le_add_left le _)

theorem frame [IsOrderedCancelAddMonoid M] (adds : t.Adds W used made action a)
    (rest : List NodeId) :
    t.Adds W (used ++ rest) (fun result => made result ++ rest) action a where
  makes := adds.makes.frame rest
  kept building := adds.kept (by rwa [List.append_assoc] at building)
  weights_le {held mid} building := by
    rw [List.append_assoc] at building
    have after := adds.makes t (rest ++ held) mid building
    have same : (action mid).2.weights W rest = mid.weights W rest := by
      rw [weights, weights]
      congr 1
      refine List.map_congr_left fun id member => ?_
      exact (adds.kept building).weight_eq building.grows.linked after.grows.linked
        (building.loose id (by simp [member])).allocated
    rw [weights_append, weights_append, same, ← add_assoc]
    exact add_le_add_left (adds.weights_le building) _

theorem bind [IsOrderedCancelAddMonoid M] {next : α → StateM Tree β}
    (first : t.Adds W used made action a)
    (second : ∀ result, t.Adds W (made result) made' (next result) b) :
    t.Adds W used made' (action >>= next) (b + a) where
  makes := .bind first.makes fun result => (second result).makes
  kept {held mid} building :=
    (first.kept building).trans ((second _).kept (first.makes t held mid building))
  weights_le {held mid} building := by
    refine ((second _).weights_le (first.makes t held mid building)).trans ?_
    rw [add_assoc]
    exact add_le_add_right (first.weights_le building) _

theorem mapM [IsOrderedCancelAddMonoid M] {f : β → StateM Tree NodeId} {bound : β → M}
    (items : List β) (each : ∀ item ∈ items, t.Adds W [] piece (f item) (bound item)) :
    t.Adds W [] (fun made => made) (items.mapM f) (items.map bound).sum := by
  induction items with
  | nil => exact .pure .rfl
  | cons head rest induction =>
    rw [List.forall_mem_cons] at each
    rw [List.mapM_cons, List.map_cons, List.sum_cons, add_comm]
    refine .bind each.1 fun first => ?_
    rw [← zero_add (rest.map bound).sum]
    refine .bind ((induction each.2).frame (piece first)) fun others => ?_
    exact .pure (List.perm_append_singleton first others)

theorem weight_le {action : StateM Tree NodeId} (adds : t.Adds W [] piece action a)
    (building : t.Building held mid) : (action mid).2.weight W (action mid).1 ≤ a := by
  have le := adds.weights_le building
  simpa [weights, piece] using le

end Adds

/-! ### Actions -/

theorem Building.weight_alloc (node : Node NodeId)
    (building : t.Building (node.children ++ held) mid) (linked : (Tree.alloc node mid).2.Linked) :
    (Tree.alloc node mid).2.weight W (Tree.alloc node mid).1 =
      W.weigh node.tag (mid.weights W node.children) := by
  have isNext : (Tree.alloc node mid).2.node ⟨mid.size⟩ = node := by rw [node_alloc, if_pos rfl]
  have isThere : (Tree.alloc node mid).2.Allocated ⟨mid.size⟩ := allocated_alloc.mpr (.inr rfl)
  have weighs := linked.weight_eq W isThere
  have below : (Tree.alloc node mid).2.weightBelow W ⟨mid.size⟩ = mid.weights W node.children := by
    rw [weightBelow, isNext, weights]
    congr 1
    refine List.map_congr_left fun child member => ?_
    exact (Extends.alloc node mid).weight_eq building.grows.linked linked
      (building.loose child (by simp [member])).allocated
  rw [isNext, below] at weighs
  exact weighs

theorem adds_alloc (node : Node NodeId)
    (plain : ∀ part ∈ [.target, .name, .params, .declarators], node.part part = [])
    (cost : ∀ sum, W.weigh node.tag sum ≤ a + sum) :
    t.Adds W node.children piece (alloc node) a where
  makes := makes_alloc node plain
  kept {held mid} _ := .alloc node mid
  weights_le {held mid} building := by
    have after := makes_alloc node plain t held mid building
    change ([_].map ((alloc node mid).2.weight W)).sum ≤ _
    rw [List.map_singleton, List.sum_singleton, building.weight_alloc node after.grows.linked]
    exact cost _

theorem adds_copy (linked : t.Linked) (root : NodeId) (allocated : t.Allocated root) :
    t.Adds W [] piece (copy root) (t.weight W root) where
  makes := makes_copy root
  kept building := by
    obtain ⟨copyOf, copied, -⟩ := building.copied root
    exact copied.grows.toExtends
  weights_le {held mid} building := by
    obtain ⟨copyOf, copied, -, isCopy, -⟩ := building.copied root
    have same := copied.weight_eq (W := W) building.grows.linked
      (building.grows.allocated allocated)
    rw [building.grows.weight_eq linked allocated, ← isCopy] at same
    change ([_].map ((copyMapped root mid).2.weight W)).sum ≤ _
    rw [List.map_singleton, List.sum_singleton]
    exact (le_of_eq same).trans (le_of_eq (add_zero _).symm)

theorem adds_leaf {node : Node NodeId} (noChildren : node.children = [])
    (plain : ∀ part ∈ [.target, .name, .params, .declarators], node.part part = [])
    (cost : ∀ sum, W.weigh node.tag sum ≤ a + sum) : t.Adds W [] piece (alloc node) a := by
  have adds := adds_alloc (t := t) node plain cost
  rwa [noChildren] at adds

theorem adds_labelled [IsOrderedCancelAddMonoid M] {label : StateM Tree NodeId}
    {form : NodeId → Node NodeId} {under : NodeId} (labelAdds : t.Adds W [] piece label a)
    (children : ∀ key, (form key).children.Perm [key, under])
    (plain : ∀ key, ∀ part ∈ [.target, .name, .params, .declarators], (form key).part part = [])
    (cost : ∀ key sum, W.weigh (form key).tag sum ≤ b + sum) :
    t.Adds W [under] piece (do alloc (form (← label))) (b + a) :=
  .bind (labelAdds.frame [under])
    fun key => (adds_alloc _ (plain key) (cost key)).perm (children key).symm

end Unravel.Tree
