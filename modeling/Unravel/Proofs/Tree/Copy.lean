import Unravel.Proofs.Syntax.Part
import Unravel.Proofs.Tree.Linked
import Mathlib.Data.List.Nodup

/-!
Copies of subtrees. While the nodes below a root are copied, children before their parents, every
node that has been copied has a copy of its own whose children are the copies of its children
(`Tree.Copying`). In the end the new nodes are exactly the copies (`Tree.Copied`).
-/

namespace Unravel

namespace Tree

variable {t after : Tree} {root id : NodeId} {copies : Copies} {done : List NodeId}

/-- The copy of a node among those made so far. -/
def Copies.of (copies : Copies) (id : NodeId) : NodeId := copies.getD id id

structure Copying (t : Tree) (done : List NodeId) (copies : Copies) (after : Tree) : Prop where
  grows : t.Grows after
  mem : ∀ id, id ∈ done ↔ ∃ copy : NodeId, copies[id]? = some copy
  children : ∀ id ∈ done, ∀ child ∈ (t.node id).children, child ∈ done
  new : ∀ id copy : NodeId, copies[id]? = some copy → ¬t.Allocated copy ∧ after.Allocated copy
  node : ∀ id copy : NodeId, copies[id]? = some copy → after.node copy = (t.node id).map copies.of
  top : ∀ id copy : NodeId, copies[id]? = some copy →
    (∀ parent ∈ done, t.parent? id ≠ some parent) →
    after.parent? copy = none
  injective : ∀ a b copy : NodeId, copies[a]? = some copy → copies[b]? = some copy → a = b
  all : ∀ copy, ¬t.Allocated copy → after.Allocated copy → ∃ id : NodeId, copies[id]? = some copy

namespace Copying

theorem start (linked : t.Linked) : Copying t [] ∅ t where
  grows := .refl linked
  mem := by simp
  children := by simp
  new := by simp
  node := by simp
  top := by simp
  injective := by simp
  all copy missing allocated := absurd allocated missing

variable (copying : Copying t done copies after) (linked : t.Linked) (fresh : id ∉ done)
  (below : ∀ child ∈ (t.node id).children, child ∈ done)

include copying

omit copying in
theorem of_eq {copy : NodeId} (found : copies[id]? = some copy) : copies.of id = copy := by
  rw [Copies.of, Std.HashMap.getD_eq_getD_getElem?, found, Option.getD_some]

include linked fresh below

/-- The copies of the children of the next node are loose, so that its copy may adopt them. -/
theorem loose_children : ∀ copy ∈ ((t.node id).map copies.of).children, t.Loose after copy := by
  intro copy member
  rw [Node.children_map, List.mem_map] at member
  obtain ⟨child, isChild, rfl⟩ := member
  obtain ⟨copy, found⟩ := (copying.mem child).mp (below child isChild)
  rw [of_eq found]
  obtain ⟨isNew, allocated⟩ := copying.new child copy found
  refine ⟨isNew, allocated, copying.top child copy found fun parent member held => ?_⟩
  rw [linked.mem_children.mp isChild, Option.some.injEq] at held
  subst held
  exact fresh member

omit fresh in
theorem nodup_children : ((t.node id).map copies.of).children.Nodup := by
  rw [Node.children_map]
  refine (linked.nodup_children id).map_on ?_
  intro a aChild b bChild same
  obtain ⟨copy, aFound⟩ := (copying.mem a).mp (below a aChild)
  obtain ⟨other, bFound⟩ := (copying.mem b).mp (below b bChild)
  rw [of_eq aFound, of_eq bFound] at same
  subst same
  exact copying.injective a b copy aFound bFound

omit fresh linked below in
theorem copyNode_eq (allocated : t.Allocated id) : Tree.copyNode copies id after =
    (copies.insert id (Tree.alloc ((t.node id).map copies.of) after).1,
      (Tree.alloc ((t.node id).map copies.of) after).2) := by
  rw [← copying.grows.node allocated]
  rfl

theorem step (allocated : t.Allocated id) :
    Copying t (done ++ [id]) (Tree.copyNode copies id after).1
      (Tree.copyNode copies id after).2 := by
  have loose := copying.loose_children linked fresh below
  have distinct := copying.nodup_children linked below
  have childAllocated := fun child member => (loose child member).allocated
  have grows := copying.grows.alloc _ loose distinct
  have next := copying.grows.loose_alloc _ childAllocated
  have node (other : NodeId) := node_alloc ((t.node id).map copies.of) after other
  have parents (other : NodeId) : (Tree.alloc ((t.node id).map copies.of) after).2.parent? other =
      if other ∈ ((t.node id).map copies.of).children then some ⟨after.size⟩
        else after.parent? other :=
    parent?_alloc childAllocated
  have entries (other : NodeId) : (Tree.alloc ((t.node id).map copies.of) after).2.Allocated other ↔
      after.Allocated other ∨ other = ⟨after.size⟩ := allocated_alloc
  have isNext : ¬after.Allocated (Tree.alloc ((t.node id).map copies.of) after).1 :=
    after.not_allocated_next
  change ∀ other, _ = if other = (Tree.alloc ((t.node id).map copies.of) after).1 then _ else _
    at node
  change ∀ other, _ ↔ _ ∨ other = (Tree.alloc ((t.node id).map copies.of) after).1 at entries
  rw [copying.copyNode_eq allocated]
  dsimp only
  generalize (Tree.alloc ((t.node id).map copies.of) after).2 = result at *
  generalize (Tree.alloc ((t.node id).map copies.of) after).1 = copy at *
  have lookup (other : NodeId) : (copies.insert id copy)[other]? =
      if other = id then some copy else copies[other]? := by
    rw [Std.HashMap.getElem?_insert]
    by_cases same : other = id
    · simp [same]
    · simp [same, Ne.symm same]
  have sameOf {child : NodeId} (isDone : child ∈ done) :
      Copies.of (copies.insert id copy) child = copies.of child := by
    have different : child ≠ id := by
      rintro rfl
      exact fresh isDone
    rw [Copies.of, Std.HashMap.getD_eq_getD_getElem?, lookup, if_neg different, Copies.of,
      Std.HashMap.getD_eq_getD_getElem?]
  have old {other copy' : NodeId} (found : copies[other]? = some copy') :
      other ∈ done ∧ copy' ≠ copy := by
    refine ⟨(copying.mem other).mpr ⟨copy', found⟩, ?_⟩
    rintro rfl
    exact isNext (copying.new other copy' found).2
  refine ⟨grows, fun other => ?_, fun other member child isChild => ?_, fun other copy' found => ?_,
    fun other copy' found => ?_, fun other copy' found above => ?_,
    fun a b copy' first second => ?_, fun copy' isNew isAllocated => ?_⟩
  · rw [List.mem_append, List.mem_singleton, copying.mem, lookup]
    by_cases same : other = id <;> simp [same]
  · rw [List.mem_append] at member ⊢
    rcases member with member | isLast
    · exact .inl (copying.children other member child isChild)
    · rw [List.mem_singleton] at isLast
      exact .inl (below child (isLast ▸ isChild))
  · rw [lookup] at found
    split at found
    · cases found
      exact ⟨next.new, next.allocated⟩
    · obtain ⟨isNew, isAllocated⟩ := copying.new other copy' found
      exact ⟨isNew, (entries copy').mpr (.inl isAllocated)⟩
  · rw [lookup] at found
    split at found
    · rename_i same
      cases found
      subst same
      rw [node, if_pos rfl]
      exact Node.map_congr_of_children fun child isChild => (sameOf (below child isChild)).symm
    · obtain ⟨isDone, different⟩ := old found
      rw [node, if_neg different, copying.node other copy' found]
      exact Node.map_congr_of_children fun child isChild =>
        (sameOf (copying.children other isDone child isChild)).symm
  · rw [lookup] at found
    split at found
    · cases found
      exact next.detached
    · rw [parents, if_neg]
      · exact copying.top other copy' found fun parent member => above parent (by simp [member])
      · intro member
        rw [Node.children_map, List.mem_map] at member
        obtain ⟨child, isChild, same⟩ := member
        obtain ⟨childCopy, childFound⟩ := (copying.mem child).mp (below child isChild)
        rw [of_eq childFound] at same
        subst same
        rw [copying.injective _ _ _ childFound found] at isChild
        exact above id (by simp) (linked.mem_children.mp isChild)
  · rw [lookup] at first second
    split at first <;> split at second
    · rename_i aSame bSame
      rw [aSame, bSame]
    · cases first
      exact absurd rfl (old second).2
    · cases second
      exact absurd rfl (old first).2
    · exact copying.injective a b copy' first second
  · rcases (entries copy').mp isAllocated with isAllocated | rfl
    · obtain ⟨other, found⟩ := copying.all copy' isNew isAllocated
      refine ⟨other, ?_⟩
      rw [lookup, if_neg, found]
      rintro rfl
      exact fresh (old found).1
    · exact ⟨id, by rw [lookup, if_pos rfl]⟩

omit linked fresh below copying in
theorem foldlM (linked : t.Linked) (rest : List NodeId) (copying : Copying t done copies after)
    (distinct : (done ++ rest).Nodup) (allocated : ∀ id ∈ rest, t.Allocated id)
    (ordered : ∀ before id behind, done ++ rest = before ++ id :: behind →
      ∀ child ∈ (t.node id).children, child ∈ before) :
    Copying t (done ++ rest) (rest.foldlM Tree.copyNode copies after).1
      (rest.foldlM Tree.copyNode copies after).2 := by
  induction rest generalizing done copies after with
  | nil =>
    rw [List.append_nil]
    exact copying
  | cons head rest induction =>
    rw [List.forall_mem_cons] at allocated
    have fresh : head ∉ done := fun member =>
      (List.nodup_append.mp distinct).2.2 head member head (List.mem_cons_self ..) rfl
    have next := copying.step linked fresh (ordered done head rest rfl) allocated.1
    rw [List.append_cons] at distinct ordered ⊢
    rw [List.foldlM_cons]
    exact induction next distinct allocated.2 ordered

end Copying

theorem Linked.pairwise_descendants (linked : t.Linked) (allocated : t.Allocated id) :
    (t.descendants id).Pairwise fun a b => t.isWithin a b = false := by
  induction id, allocated using linked.induction_children with
  | step id allocated induction =>
    rw [linked.descendants_eq allocated, List.pairwise_cons, List.pairwise_flatMap]
    have below {child inner : NodeId} (isChild : child ∈ (t.node id).children)
        (member : inner ∈ t.descendants child) :
        t.parent? child = some id ∧ t.isWithin inner child = true := by
      have held := linked.mem_children.mp isChild
      exact ⟨held, (linked.mem_descendants_iff (allocated_of_parent? held)).mp member⟩
    refine ⟨fun inner member => ?_, fun child isChild => ?_, ?_⟩
    · obtain ⟨child, isChild, member⟩ := List.mem_flatMap.mp member
      obtain ⟨held, within⟩ := below isChild member
      rw [Bool.eq_false_iff]
      intro above
      have same := linked.isWithin_antisymm (linked.isWithin_of_parent held)
        (linked.isWithin_trans above within)
      rw [same] at held
      exact linked.parent?_ne_self id held
    · exact induction child (linked.mem_children.mp isChild)
    · refine (linked.nodup_children id).imp_of_mem ?_
      intro a b aChild bChild different x xMember y yMember
      obtain ⟨aHeld, xWithin⟩ := below aChild xMember
      obtain ⟨bHeld, yWithin⟩ := below bChild yMember
      rw [Bool.eq_false_iff]
      intro within
      exact different (linked.eq_of_isWithin_children aHeld bHeld xWithin
        (linked.isWithin_trans within yWithin))

/-- What copying does: below the copy of the root are the copies of what is below the root, and no
other nodes are new. -/
structure Copied (t : Tree) (root : NodeId) (copyOf : NodeId → NodeId) (after : Tree) : Prop where
  grows : t.Grows after
  new : ∀ id, t.isWithin id root = true → ¬t.Allocated (copyOf id) ∧ after.Allocated (copyOf id)
  node : ∀ id, t.isWithin id root = true → after.node (copyOf id) = (t.node id).map copyOf
  injective :
    ∀ a b, t.isWithin a root = true → t.isWithin b root = true → copyOf a = copyOf b → a = b
  loose : t.Loose after (copyOf root)
  all : ∀ copy, ¬t.Allocated copy → after.Allocated copy →
    ∃ id, t.isWithin id root = true ∧ copy = copyOf id

private theorem Linked.copied_of_allocated (linked : t.Linked) (allocated : t.Allocated root) :
    t.Copied root (copyMapped root t).1.2.of (copyMapped root t).2 ∧
      (copyMapped root t).1.1 = (copyMapped root t).1.2.of root := by
  have distinct : (t.descendants root).reverse.Nodup :=
    List.nodup_reverse.mpr (linked.nodup_descendants allocated)
  have within {id : NodeId} : id ∈ (t.descendants root).reverse ↔ t.isWithin id root = true := by
    rw [List.mem_reverse, linked.mem_descendants_iff allocated]
  have order := List.pairwise_reverse.mpr
    ((linked.pairwise_descendants allocated).imp (S := fun a b => ¬t.isWithin a b = true) (by simp))
  have copying := (Copying.start linked).foldlM linked (t.descendants root).reverse
    (by simpa using distinct)
    (fun id member => linked.allocated_of_isWithin (within.mp member) allocated) (by
      intro before id behind split child isChild
      rw [List.nil_append] at split
      have held := linked.mem_children.mp isChild
      have below := linked.isWithin_of_parent held
      have member : child ∈ before ++ id :: behind := by
        rw [← split, within]
        exact linked.isWithin_trans below (within.mp (by simp [split]))
      rw [List.mem_append, List.mem_cons] at member
      rw [split] at order
      rcases member with member | rfl | member
      · exact member
      · exact absurd held (linked.parent?_ne_self child)
      · have apart := (List.pairwise_cons.mp (List.pairwise_append.mp order).2.1).1 child member
        exact absurd below apart)
  rw [List.nil_append] at copying
  have result : copyMapped root t =
      (((((t.descendants root).reverse.foldlM copyNode ∅ t).1.getD root root),
        ((t.descendants root).reverse.foldlM copyNode ∅ t).1),
        ((t.descendants root).reverse.foldlM copyNode ∅ t).2) := rfl
  rw [result]
  dsimp only
  generalize ((t.descendants root).reverse.foldlM copyNode ∅ t).1 = copies at *
  generalize ((t.descendants root).reverse.foldlM copyNode ∅ t).2 = after at *
  have found {id : NodeId} (inside : t.isWithin id root = true) :
      copies[id]? = some (copies.of id) := by
    obtain ⟨copy, isCopy⟩ := (copying.mem id).mp (within.mpr inside)
    rw [Copying.of_eq isCopy, isCopy]
  refine ⟨⟨copying.grows, fun id inside => ?_, fun id inside => ?_,
    fun a b aInside bInside same => ?_, ?_, fun copy isNew isAllocated => ?_⟩, rfl⟩
  · exact copying.new id _ (found inside)
  · exact copying.node id _ (found inside)
  · exact copying.injective a b _ (found aInside) (same ▸ found bInside)
  · obtain ⟨isNew, isAllocated⟩ := copying.new root _ (found isWithin_self)
    refine ⟨isNew, isAllocated, copying.top root _ (found isWithin_self)
      fun parent member held => ?_⟩
    have inside := within.mp member
    have same := linked.isWithin_antisymm inside (linked.isWithin_of_parent held)
    rw [same] at held
    exact linked.parent?_ne_self root held
  · obtain ⟨id, isCopy⟩ := copying.all copy isNew isAllocated
    exact ⟨id, within.mp ((copying.mem id).mpr ⟨copy, isCopy⟩), (Copying.of_eq isCopy).symm⟩

private theorem Linked.copied_of_not_allocated (linked : t.Linked) (nonempty : t.size ≠ 0)
    (missing : ¬t.Allocated root) :
    t.Copied root (copyMapped root t).1.2.of (copyMapped root t).2 ∧
      (copyMapped root t).1.1 = (copyMapped root t).1.2.of root := by
  obtain ⟨limit, size⟩ := Nat.exists_eq_succ_of_ne_zero nonempty
  have isEmpty : t.node root = .empty := node_of_not_allocated missing
  have alone : t.descendants root = [root] := by
    rw [descendants, size]
    simp [descendantsWithin, isEmpty, Node.children]
  have result : copyMapped root t = ((((∅ : Copies).insert root ⟨t.size⟩).getD root root,
      (∅ : Copies).insert root ⟨t.size⟩), (Tree.alloc .empty t).2) := by
    change (((((t.descendants root).reverse.foldlM copyNode ∅ t).1.getD root root),
        ((t.descendants root).reverse.foldlM copyNode ∅ t).1),
        ((t.descendants root).reverse.foldlM copyNode ∅ t).2) = _
    have step : [root].reverse.foldlM copyNode ∅ t =
        ((∅ : Copies).insert root ⟨t.size⟩, (Tree.alloc ((t.node root).map (∅ : Copies).of) t).2) :=
        rfl
    rw [alone, step, isEmpty]
    rfl
  have inside {id : NodeId} (within : t.isWithin id root = true) : id = root := by
    rcases isWithin_iff.mp within with same | above
    · exact same
    · exact absurd (linked.allocated_of_mem_ancestors above) missing
  have copy : Copies.of ((∅ : Copies).insert root ⟨t.size⟩) root = ⟨t.size⟩ := by simp [Copies.of]
  have grows := (Grows.refl linked).alloc .empty (by simp [Node.children]) List.nodup_nil
  have loose := (Grows.refl linked).loose_alloc .empty (by simp [Node.children])
  rw [result]
  refine ⟨⟨grows, fun id within => ?_, fun id within => ?_, fun a b aWithin bWithin _ => ?_, ?_,
    fun new isNew isAllocated => ?_⟩, rfl⟩
  · rw [inside within, copy]
    exact ⟨loose.new, loose.allocated⟩
  · rw [inside within, copy, node_alloc, if_pos rfl, isEmpty]
    rfl
  · rw [inside aWithin, inside bWithin]
  · rw [copy]
    exact loose
  · refine ⟨root, isWithin_self, ?_⟩
    rw [copy]
    exact (allocated_alloc.mp isAllocated).resolve_left isNew

theorem Linked.copied (linked : t.Linked) (nonempty : t.size ≠ 0) (root : NodeId) :
    t.Copied root (copyMapped root t).1.2.of (copyMapped root t).2 ∧
      (copyMapped root t).1.1 = (copyMapped root t).1.2.of root := by
  by_cases allocated : t.Allocated root
  · exact linked.copied_of_allocated allocated
  · exact linked.copied_of_not_allocated nonempty allocated

end Tree

end Unravel
