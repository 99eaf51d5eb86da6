import Unravel.Proofs.Program.Change
import Unravel.Proofs.Tree.Weight

/-!
What replacements and removals do to the weight of a program.
-/

namespace Unravel

variable {M : Type} [AddCommMonoid M] [LinearOrder M]

namespace Tree

variable {t after : Tree} {W : Weighing M} {root id : NodeId}

theorem Unchanged.weight_eq (unchanged : t.Unchanged after root) (linked : t.Linked)
    (afterLinked : after.Linked) (size : t.size ≤ after.size) (allocated : t.Allocated root)
    (within : t.isWithin id root = true) :
    after.weight W id = t.weight W id := by
  refine linked.weight_of_copy afterLinked (fun other => other)
    (linked.allocated_of_isWithin within allocated) fun other below => ?_
  have inside := linked.isWithin_trans below within
  refine ⟨Nat.lt_of_lt_of_le (linked.allocated_of_isWithin inside allocated) size, ?_⟩
  rw [unchanged.node inside, List.map_id']
  exact ⟨rfl, rfl⟩

end Tree

namespace Program

variable {p q after : Program} {grown : Tree} {W : Weighing M} {target replacement id : NodeId}
  {R : M → M → Prop}

/-- The weight of the tree of a program. -/
def weight (p : Program) (W : Weighing M) : M := p.tree.weight W p.root

theorem weight_grow (linked : p.tree.Linked) (isTop : p.tree.IsTop p.root)
    (grows : p.tree.Grows grown) :
    Program.weight { p with tree := grown } W = p.weight W := grows.weight_eq linked isTop.allocated

variable [IsOrderedCancelAddMonoid M] [IsBotZeroClass M]

/-- What is placed instead of a replacement does not weigh more, and no other node does. -/
theorem weight_unwrap (linked : p.tree.Linked) (target : NodeId)
    (allocated : p.tree.Allocated replacement) :
    (p.unwrap target replacement).2.tree.weight W (p.unwrap target replacement).1 ≤
      p.tree.weight W replacement ∧
      ∀ {id}, p.tree.Allocated id → (p.unwrap target replacement).2.tree.weight W id ≤
        p.tree.weight W id := by
  rw [unwrap]
  split
  · exact ⟨le_rfl, fun _ => le_rfl⟩
  · rename_i inner sole
    rw [Option.ite_none_right_eq_some] at sole
    split
    · rename_i tree taken
      have edited := Tree.edited_detach linked taken
      have possible := Tree.Exchangeable.of_detach taken
      have held := parent?_of_soleStatement? linked sole.2
      have lighter {id : NodeId} (isAllocated : p.tree.Allocated id) :
          tree.weight W id ≤ p.tree.weight W id :=
        edited.weight_le linked possible zero_le isAllocated
      exact ⟨(lighter (Tree.allocated_of_parent? held)).trans
        (linked.weight_le_of_isWithin W allocated (linked.isWithin_of_parent held)), lighter⟩
    · exact ⟨le_rfl, fun _ => le_rfl⟩

namespace Replaced

variable (replaced : p.Replaced target replacement after)

include replaced

theorem weight_carried (carries : W.Carries R)
    (related : ∀ x, x ≤ p.tree.weight W replacement → R x (p.tree.weight W target)) :
    R (after.weight W) (p.weight W) := by
  have linked := replaced.linked
  have isTop := replaced.sound.isTop
  obtain ⟨lighter, -⟩ := weight_unwrap (W := W) linked target replaced.allocated
  have attached := replaced.attached
  have notRoot := replaced.possible.notRoot
  have result := replaced.placed
  generalize (p.unwrap target replacement).1 = placed at *
  generalize (p.unwrap target replacement).2 = q at *
  have unwrapped := result.unwrapped
  have size := Nat.le_of_eq unwrapped.size.symm
  have same {id : NodeId} (within : p.tree.isWithin id p.root = true) :
      q.tree.weight W id = p.tree.weight W id :=
    unwrapped.unchanged.weight_eq linked unwrapped.linked size isTop.allocated within
  have rootAllocated : q.tree.Allocated p.root := Nat.lt_of_lt_of_le isTop.allocated size
  rw [weight, weight, result.root, ← same Tree.isWithin_self]
  refine result.edited.weight_carried unwrapped.linked result.possible carries ?_ rootAllocated
    result.attached notRoot
  rw [same attached]
  exact related _ lighter

theorem weight_le (lighter : p.tree.weight W replacement ≤ p.tree.weight W target)
    (allocated : p.tree.Allocated id) : after.tree.weight W id ≤ p.tree.weight W id := by
  have linked := replaced.linked
  have isTop := replaced.sound.isTop
  obtain ⟨placedLighter, others⟩ := weight_unwrap (W := W) linked target replaced.allocated
  have attached := replaced.attached
  have result := replaced.placed
  generalize (p.unwrap target replacement).1 = placed at *
  generalize (p.unwrap target replacement).2 = q at *
  have unwrapped := result.unwrapped
  have size := Nat.le_of_eq unwrapped.size.symm
  refine (result.edited.weight_le unwrapped.linked result.possible ?_
    (Nat.lt_of_lt_of_le allocated size)).trans (others allocated)
  rw [unwrapped.unchanged.weight_eq linked unwrapped.linked size isTop.allocated attached]
  exact placedLighter.trans lighter

end Replaced

namespace Taken

variable (taken : p.Taken target after)

include taken

omit [IsOrderedCancelAddMonoid M] [IsBotZeroClass M] in
theorem weight_carried (carries : W.Carries R) (related : R 0 (p.tree.weight W (p.leaving target)))
    (blank : R (W.weigh .empty 0) (p.tree.weight W (p.leaving target))) :
    R (after.weight W) (p.weight W) := by
  have linked := taken.linked
  have isTop := taken.sound.isTop
  have removed := taken.removed
  have attached := taken.attached_leaving
  have notRoot := taken.notRoot
  generalize p.leaving target = gone at *
  rw [weight, weight, removed.root]
  rcases removed.tree with ⟨edited, possible⟩ | ⟨edited, possible, -⟩
  · exact edited.weight_carried linked possible carries related isTop.allocated attached notRoot
  · obtain ⟨grows, loose, isEmpty⟩ := grows_withEmpty linked
    have alike := (grows.unchanged linked isTop).alike linked isTop.top
    rw [← grows.weight_eq linked isTop.allocated]
    refine edited.weight_carried grows.linked possible carries ?_ (grows.allocated isTop.allocated)
      ?_ notRoot
    · rw [grows.weight_eq linked (linked.allocated_of_isWithin attached isTop.allocated),
        Option.map_some, Option.getD_some, grows.linked.weight_eq W loose.allocated,
        Tree.weightBelow, isEmpty]
      exact blank
    · rw [alike.isWithin linked grows.linked attached, attached]

omit [IsOrderedCancelAddMonoid M] [IsBotZeroClass M] in
theorem weight_of_outside (allocated : p.tree.Allocated id)
    (outside : p.tree.isWithin (p.leaving target) id = false) :
    after.tree.weight W id = p.tree.weight W id := by
  have linked := taken.linked
  have isTop := taken.sound.isTop
  have removed := taken.removed
  have goneAllocated := linked.allocated_of_isWithin taken.attached_leaving isTop.allocated
  generalize p.leaving target = gone at *
  have notAbove : id ∉ p.tree.ancestors gone := fun above => by
    rw [Tree.isWithin_iff.mpr (.inr above)] at outside
    cases outside
  rcases removed.tree with ⟨edited, possible⟩ | ⟨edited, possible, -⟩
  · exact edited.weight_of_outside linked possible allocated notAbove
  · obtain ⟨grows, -, -⟩ := grows_withEmpty linked
    rw [edited.weight_of_outside grows.linked possible (grows.allocated allocated),
      grows.weight_eq linked allocated]
    intro above
    have within := Tree.isWithin_iff.mpr (.inr above)
    rw [(grows.alike linked).isWithin linked grows.linked goneAllocated, outside] at within
    cases within

theorem weight_le (blank : W.weigh .empty 0 ≤ p.tree.weight W (p.leaving target))
    (allocated : p.tree.Allocated id) : after.tree.weight W id ≤ p.tree.weight W id := by
  have linked := taken.linked
  have isTop := taken.sound.isTop
  have removed := taken.removed
  have goneAllocated := linked.allocated_of_isWithin taken.attached_leaving isTop.allocated
  generalize p.leaving target = gone at *
  rcases removed.tree with ⟨edited, possible⟩ | ⟨edited, possible, -⟩
  · exact edited.weight_le linked possible zero_le allocated
  · obtain ⟨grows, loose, isEmpty⟩ := grows_withEmpty linked
    rw [← grows.weight_eq linked allocated]
    refine edited.weight_le grows.linked possible ?_ (grows.allocated allocated)
    rw [grows.weight_eq linked goneAllocated, Option.map_some, Option.getD_some,
      grows.linked.weight_eq W loose.allocated, Tree.weightBelow, isEmpty]
    exact blank

end Taken

end Program

end Unravel
