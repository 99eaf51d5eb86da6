import Mathlib.Algebra.Order.BigOperators.Group.List
import Mathlib.Algebra.Order.Group.Nat
import Mathlib.Algebra.Order.IsBotOne
import Mathlib.Data.Finsupp.WellFounded
import Unravel.Proofs.Tree.Copy
import Unravel.Proofs.Tree.Edit

/-!
Weights of which some outweigh any number of others (`Degrees`), in the order of the largest number
in which two of them differ.

Weights of trees. The weight of a node is made of its tag and of the weights of its children
(`Tree.weight`). What an exchange does to the weight of one node it does to the weights of all nodes
around it, for every relation between weights that goes on upwards (`Weighing.Carries`).
-/

namespace Unravel

/-- How often every number occurs; a larger number outweighs all smaller ones. -/
abbrev Degrees := Colex (ℕ →₀ ℕ)

namespace Degrees

variable {a b : Degrees} {n : ℕ}

theorem lt_iff :
    a < b ↔ ∃ i, (∀ j, i < j → ofColex a j = ofColex b j) ∧ ofColex a i < ofColex b i := Iff.rfl

/-- A single number. -/
noncomputable def one (n : ℕ) : Degrees := toColex (Finsupp.single n 1)

def height (a : Degrees) : ℕ := (ofColex a).support.sup id

theorem eq_zero_of_height_lt (above : a.height < n) : ofColex a n = 0 := by
  by_contra occurs
  have le : n ≤ a.height := Finset.le_sup (f := id) (Finsupp.mem_support_iff.mpr occurs)
  omega

theorem height_add_le (a b : Degrees) : (a + b).height ≤ max a.height b.height := by
  refine Finset.sup_le fun n member => ?_
  rw [Finsupp.mem_support_iff, ofColex_add, Finsupp.add_apply] at member
  by_contra above
  rw [id_eq, not_le, max_lt_iff] at above
  exact member (by rw [eq_zero_of_height_lt above.1, eq_zero_of_height_lt above.2, add_zero])

theorem height_sum_le {l : List Degrees} (each : ∀ a ∈ l, a.height ≤ n) : l.sum.height ≤ n := by
  induction l with
  | nil => exact Nat.zero_le n
  | cons head rest induction =>
    rw [List.forall_mem_cons] at each
    rw [List.sum_cons]
    exact (height_add_le _ _).trans (max_le each.1 (induction each.2))

theorem lt_one (below : a.height < n) : a < one n := by
  refine lt_iff.mpr ⟨n, fun j above => ?_, ?_⟩
  · rw [eq_zero_of_height_lt (below.trans above), one, ofColex_toColex, Finsupp.single_apply,
      if_neg above.ne]
  · rw [eq_zero_of_height_lt below, one, ofColex_toColex, Finsupp.single_eq_same]
    exact Nat.one_pos

theorem height_one (n : ℕ) : (one n).height ≤ n := by
  refine Finset.sup_le fun m member => ?_
  rw [one, ofColex_toColex, Finsupp.mem_support_single] at member
  exact member.1.le

theorem one_pos (n : ℕ) : 0 < one n :=
  lt_iff.mpr ⟨n, fun j above => (Finsupp.single_eq_of_ne above.ne').symm, by simp [one]⟩

theorem one_mono : Monotone one := Finsupp.Colex.single_strictMono.monotone

theorem height_mono : Monotone height := by
  intro a b le
  by_contra above
  rw [not_le] at above
  have least : one a.height ≤ a := by
    have occurs : a.height ∈ (ofColex a).support := by
      have nonempty : (ofColex a).support.Nonempty := by
        rw [Finset.nonempty_iff_ne_empty]
        intro isEmpty
        rw [show a.height = 0 by rw [height, isEmpty]; rfl] at above
        exact Nat.not_lt_zero _ above
      obtain ⟨largest, member, same⟩ := Finset.exists_mem_eq_sup _ nonempty id
      rw [height, same]
      exact member
    refine Finsupp.toColex_monotone (Finsupp.single_le_iff.mpr ?_)
    exact Nat.one_le_iff_ne_zero.mpr (Finsupp.mem_support_iff.mp occurs)
  exact absurd (least.trans le) (not_le.mpr (lt_one above))

end Degrees

/-! ### Weights of trees -/

/-- A way to weigh trees: what a tag makes of the sum of the weights of the children. -/
structure Weighing (M : Type) [AddCommMonoid M] [LinearOrder M] where
  weigh : Node Unit → M → M
  le_weigh : ∀ tag sum, sum ≤ weigh tag sum
  strictMono : ∀ tag, StrictMono (weigh tag)

theorem sum_map_flatMap_swap {α M : Type} [DecidableEq α] [AddCommMonoid M] {old : α}
    {new : Option α} {l : List α} (f : α → M) (distinct : l.Nodup) (member : old ∈ l) :
    ((l.flatMap (swap old new)).map f).sum = (new.map f).getD 0 + ((l.erase old).map f).sum := by
  induction l with
  | nil => cases member
  | cons head rest induction =>
    rw [List.nodup_cons] at distinct
    by_cases same : head = old
    · subst same
      rw [List.flatMap_cons, swap_self, flatMap_swap_of_notMem distinct.1, List.erase_cons_head,
        List.map_append, List.sum_append]
      cases new with
      | none => rfl
      | some child => simp
    · have inRest := (List.mem_cons.mp member).resolve_left (Ne.symm same)
      rw [List.flatMap_cons, swap_of_ne same, List.singleton_append, List.map_cons, List.sum_cons,
        induction distinct.2 inRest, List.erase_cons_tail (by simpa using same), List.map_cons,
        List.sum_cons, add_left_comm]

variable {M : Type} [AddCommMonoid M] [LinearOrder M]

namespace Weighing

def Carries (W : Weighing M) (R : M → M → Prop) : Prop :=
  ∀ tag x y others, R x y → R (W.weigh tag (x + others)) (W.weigh tag (y + others))

variable [IsOrderedCancelAddMonoid M]

theorem carries_lt (W : Weighing M) : W.Carries (· < ·) :=
  fun tag _ _ others less => W.strictMono tag (add_lt_add_left less others)

theorem carries_le (W : Weighing M) : W.Carries (· ≤ ·) :=
  fun tag _ _ others le => (W.strictMono tag).monotone (add_le_add_left le others)

variable [IsBotZeroClass M]

/-- Every node adds its own cost. -/
def sum (cost : Node Unit → M) : Weighing M where
  weigh tag sum := cost tag + sum
  le_weigh _ _ := le_add_of_nonneg_left zero_le
  strictMono _ _ _ less := add_lt_add_right less _

theorem carries_sum (cost : Node Unit → M) (a b : M) :
    (sum cost).Carries fun x y => x + a ≤ y + b := by
  intro tag x y others le
  have regroup (z c : M) : cost tag + (z + others) + c = cost tag + others + (z + c) := by
    rw [add_comm z, ← add_assoc, add_assoc]
  change cost tag + (x + others) + a ≤ cost tag + (y + others) + b
  rw [regroup, regroup]
  exact add_le_add_right le _

end Weighing

namespace Tree

def weightWithin (t : Tree) (W : Weighing M) : Nat → NodeId → M
  | 0, _ => 0
  | limit + 1, id =>
    W.weigh (t.node id).tag (((t.node id).children.map (t.weightWithin W limit)).sum)

/-- The weight of a node. -/
def weight (t : Tree) (W : Weighing M) (id : NodeId) : M := t.weightWithin W t.size id

/-- What the children of a node weigh together. -/
def weightBelow (t : Tree) (W : Weighing M) (id : NodeId) : M :=
  ((t.node id).children.map (t.weight W)).sum

variable {t after : Tree} {W : Weighing M} {root id old child : NodeId} {new : Option NodeId}

theorem Linked.weight_eq (linked : t.Linked) (W : Weighing M) (allocated : t.Allocated id) :
    t.weight W id = W.weigh (t.node id).tag (t.weightBelow W id) := by
  refine linked.walk_eq (t.weightWithin W)
    (fun id below => W.weigh (t.node id).tag (((t.node id).children.map below).sum))
    (fun _ _ => rfl) (fun id f g same => ?_) allocated
  rw [List.map_congr_left same]

theorem Linked.weight_of_copy (linked : t.Linked) (afterLinked : after.Linked)
    (copyOf : NodeId → NodeId) (allocated : t.Allocated root)
    (copied : ∀ id, t.isWithin id root = true →
      after.Allocated (copyOf id) ∧ (after.node (copyOf id)).tag = (t.node id).tag ∧
        (after.node (copyOf id)).children = (t.node id).children.map copyOf) :
    after.weight W (copyOf root) = t.weight W root := by
  suffices below : ∀ id, t.isWithin id root = true → after.weight W (copyOf id) = t.weight W id from
    below root isWithin_self
  intro id within
  induction id, linked.allocated_of_isWithin within allocated using linked.induction_children with
  | step id isAllocated induction =>
    obtain ⟨copyAllocated, tag, children⟩ := copied id within
    rw [linked.weight_eq W isAllocated, afterLinked.weight_eq W copyAllocated, weightBelow,
      weightBelow, tag, children, List.map_map]
    congr 2
    refine List.map_congr_left fun child member => ?_
    have held := linked.mem_children.mp member
    exact induction child held (linked.isWithin_trans (linked.isWithin_of_parent held) within)

theorem Copied.weight_eq {copyOf : NodeId → NodeId} (copied : t.Copied root copyOf after)
    (linked : t.Linked) (allocated : t.Allocated root) :
    after.weight W (copyOf root) = t.weight W root :=
  linked.weight_of_copy copied.grows.linked copyOf allocated fun id within =>
    ⟨(copied.new id within).2, by rw [copied.node id within, Node.tag_map],
      by rw [copied.node id within, Node.children_map]⟩

/-- What was there keeps its weight when a store grows. -/
theorem Grows.weight_eq (grows : t.Grows after) (linked : t.Linked) (allocated : t.Allocated root) :
    after.weight W root = t.weight W root := by
  refine linked.weight_of_copy grows.linked id allocated fun id within => ?_
  have isAllocated := linked.allocated_of_isWithin within allocated
  refine ⟨grows.allocated isAllocated, ?_⟩
  rw [id_eq, grows.node isAllocated, List.map_id]
  exact ⟨rfl, rfl⟩

section Order

variable [IsOrderedCancelAddMonoid M] [IsBotZeroClass M]

theorem le_sum_of_mem {l : List M} {x : M} (member : x ∈ l) : x ≤ l.sum := by
  induction l with
  | nil => cases member
  | cons head rest induction =>
    rw [List.sum_cons]
    rcases List.mem_cons.mp member with rfl | member
    · exact le_add_of_nonneg_right zero_le
    · exact (induction member).trans (le_add_of_nonneg_left zero_le)

theorem Linked.weight_le_of_isWithin (linked : t.Linked) (W : Weighing M)
    (allocated : t.Allocated root) (within : t.isWithin id root = true) :
    t.weight W id ≤ t.weight W root := by
  induction root, allocated using linked.induction_children with
  | step root allocated induction =>
    by_cases same : id = root
    · rw [same]
    · obtain ⟨child, member, below⟩ := linked.exists_child within same
      refine (induction child (linked.mem_children.mp member) below).trans ?_
      rw [linked.weight_eq W allocated]
      exact (le_sum_of_mem (List.mem_map_of_mem member)).trans (W.le_weigh _ _)

end Order

namespace Edited

variable (edited : t.Edited after old new) (linked : t.Linked) (possible : t.Exchangeable old new)

include edited linked possible

theorem weight_of_outside (allocated : t.Allocated id) (outside : id ∉ t.ancestors old) :
    after.weight W id = t.weight W id := by
  have afterLinked := edited.linked linked possible
  induction id, allocated using linked.induction_children with
  | step id allocated induction =>
    have notHeld : old ∉ (t.node id).children := fun member =>
      outside (linked.mem_ancestors_iff.mpr ⟨id, linked.mem_children.mp member, .inl rfl⟩)
    rw [linked.weight_eq W allocated, afterLinked.weight_eq W (edited.allocated.mpr allocated),
      weightBelow, weightBelow, edited.kept id notHeld]
    congr 2
    refine List.map_congr_left fun child member =>
      induction child (linked.mem_children.mp member) ?_
    intro around
    have above := linked.mem_ancestors_iff.mpr ⟨id, linked.mem_children.mp member, .inl rfl⟩
    exact outside (linked.mem_ancestors_trans above around)

theorem weight_carried {R : M → M → Prop} (carries : W.Carries R)
    (related : R ((new.map (t.weight W)).getD 0) (t.weight W old)) (allocated : t.Allocated id)
    (around : t.isWithin old id = true) (different : old ≠ id) :
    R (after.weight W id) (t.weight W id) := by
  have afterLinked := edited.linked linked possible
  induction id, allocated using linked.induction_children with
  | step id allocated induction =>
    obtain ⟨child, member, below⟩ := linked.exists_child around different
    have held := linked.mem_children.mp member
    have distinct := linked.nodup_children id
    have others : ((((t.node id).children.erase child).map (after.weight W)).sum =
        (((t.node id).children.erase child).map (t.weight W)).sum) := by
      congr 1
      refine List.map_congr_left fun other isOther => ?_
      rw [distinct.mem_erase_iff] at isOther
      have otherHeld := linked.mem_children.mp isOther.2
      refine edited.weight_of_outside linked possible (allocated_of_parent? otherHeld)
        fun above => ?_
      exact isOther.1 (linked.eq_of_isWithin_children otherHeld held
        (isWithin_iff.mpr (.inr above)) below)
    have before : t.weight W id = W.weigh (t.node id).tag
        (t.weight W child + (((t.node id).children.erase child).map (t.weight W)).sum) := by
      rw [linked.weight_eq W allocated, weightBelow, List.sum_map_erase _ member]
    rw [afterLinked.weight_eq W (edited.allocated.mpr allocated), edited.tag, weightBelow, before]
    by_cases same : child = old
    · subst same
      have incoming : (new.map (after.weight W)).getD 0 = (new.map (t.weight W)).getD 0 := by
        cases isNew : new with
        | none => rfl
        | some n =>
          refine edited.weight_of_outside linked possible (possible.allocated n isNew)
            fun above => ?_
          have apart := possible.apart
          rw [isNew, isIncoming_some, isWithin_iff.mpr (.inr above)] at apart
          cases apart
      rw [(edited.node id).children, sum_map_flatMap_swap _ distinct member, incoming, others]
      exact carries _ _ _ _ related
    · have notHeld : old ∉ (t.node id).children := fun isHeld =>
        same (linked.eq_of_isWithin_children held (linked.mem_children.mp isHeld) below
          isWithin_self)
      rw [edited.kept id notHeld, ← List.sum_map_erase _ member, others]
      exact carries _ _ _ _ (induction child held below (Ne.symm same))

theorem weight_le [IsOrderedCancelAddMonoid M]
    (lighter : (new.map (t.weight W)).getD 0 ≤ t.weight W old) (allocated : t.Allocated id) :
    after.weight W id ≤ t.weight W id := by
  by_cases above : id ∈ t.ancestors old
  · refine edited.weight_carried linked possible W.carries_le lighter allocated
      (isWithin_iff.mpr (.inr above)) ?_
    rintro rfl
    exact linked.notMem_ancestors _ above
  · rw [edited.weight_of_outside linked possible allocated above]

end Edited

end Tree

end Unravel
