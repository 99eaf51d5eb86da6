import Unravel.Proofs.Program.Remnant
import Unravel.Proofs.Program.Reworded

/-!
Programs in which nodes have come to stand for others, for none, or for new ones
(`Program.Recomposed`): what is left holds, where it held some nodes, what these stand for, and
everything that is new stands where something else did. A removal is a change of this kind
(`Program.Taken.recomposed`), and so is a use that is put in other words
(`Program.Rewording.recomposed`). Uses come to stand for new nodes of one spelling
(`Program.Fills`), and declarators go away (`Program.Rids`), one after the other.
-/

namespace Unravel

namespace Node

variable {α : Type} {becomes next : α → List α} {n n' n'' : Node α}

structure Rebuilt (becomes : α → List α) (n n' : Node α) : Prop where
  tag : n'.tag = n.tag
  children : n'.children = n.children.flatMap becomes
  part : ∀ part, n'.part part = (n.part part).flatMap becomes

theorem Rebuilt.refl (n : Node α) : n.Rebuilt (fun id => [id]) n where
  tag := rfl
  children := (List.flatMap_singleton' _).symm
  part _ := (List.flatMap_singleton' _).symm

theorem Rebuilt.trans (first : n.Rebuilt becomes n') (further : n'.Rebuilt next n'') :
    n.Rebuilt (fun id => (becomes id).flatMap next) n'' where
  tag := further.tag.trans first.tag
  children := by rw [further.children, first.children, List.flatMap_assoc]
  part part := by rw [further.part, first.part, List.flatMap_assoc]

theorem eq_identifier {name : String} (spelled : n.identifier? = some name) :
    n = .identifier name := by
  cases n with
  | identifier text => rw [Option.some.inj spelled]
  | _ => cases spelled

theorem eq_literal {l : Literal} (tag : n.tag = .literal l) : n = .literal l := by
  cases n with
  | literal other => rw [Node.literal.inj tag]
  | _ => cases tag

theorem Swapped.rebuilt [DecidableEq α] {old : α} {new : Option α}
    (swapped : n.Swapped old new n') :
    n.Rebuilt (swap old new) n' :=
  ⟨swapped.tag, swapped.children, swapped.part⟩

end Node

namespace Program

variable {p q r : Program} {becomes next : NodeId → List NodeId} {leaf : Node NodeId} {grown : Tree}
  {ids : List NodeId} {id new outer target old site piece declarator : NodeId}

/-- Nodes have come to stand for others, each in its place. What is left stands for itself, and
nothing that has hung nowhere comes in. -/
structure Recomposed (p q : Program) (becomes : NodeId → List NodeId) : Prop where
  root : q.root = p.root
  size : p.tree.size ≤ q.tree.size
  back : ∀ {id}, p.tree.Allocated id → q.isAttached id = true → p.isAttached id = true
  node : ∀ {id}, p.isAttached id = true → q.isAttached id = true →
    (p.node id).Rebuilt becomes (q.node id)
  stays : ∀ {id}, p.isAttached id = true → q.isAttached id = true → becomes id = [id]
  fresh : ∀ {id new}, new ∈ becomes id → new = id ∨ ¬p.tree.Allocated new ∧ q.tree.Allocated new
  outside : ∀ {id}, p.tree.Allocated id → p.isAttached id = false → becomes id = [id]
  place : ∀ {id new}, p.isAttached id = true → new ∈ becomes id → q.isAttached new = true →
    q.tree.parent? new = p.tree.parent? id ∧ q.tree.role new = p.tree.role id

namespace Recomposed

theorem refl (p : Program) : p.Recomposed p fun id => [id] where
  root := rfl
  size := Nat.le_refl _
  back _ attached := attached
  node _ _ := .refl _
  stays _ _ := rfl
  fresh member := .inl (List.mem_singleton.mp member)
  outside _ _ := rfl
  place _ member _ := by
    rw [List.mem_singleton.mp member]
    exact ⟨rfl, rfl⟩

theorem of_edited {new : Option NodeId} (steady : p.Steady) (afterSteady : q.Steady)
    (grows : p.tree.Grows grown) (edited : grown.Edited q.tree old new)
    (possible : grown.Exchangeable old new) (root : q.root = p.root)
    (attached : p.tree.isWithin old p.root = true)
    (isNew : ∀ n, new = some n → p.tree.Loose grown n) :
    p.Recomposed q (swap old new) := by
  have linked := steady.linked
  have loses := Loses.of_edited linked steady.isTop grows edited possible attached root isNew
  have rooted := steady.sound.rooted
  have afterRooted := afterSteady.sound.rooted
  have ne_old {id : NodeId} (allocated : p.tree.Allocated id) (isLeft : q.isAttached id = true) :
      id ≠ old := by
    rintro rfl
    rw [isAttached_eq afterRooted.linked afterRooted.isTop.top] at isLeft
    have outside := (loses.lost allocated isLeft).2
    simp at outside
  refine ⟨root, grows.size.trans (Nat.le_of_eq edited.size.symm), fun {id} allocated isLeft => ?_,
    fun {id} isAttached _ => ?_, fun {id} isAttached isLeft => ?_, fun {id n} member => ?_,
    fun {id} _ isOutside => ?_, fun {id n} isAttached member isLeft => ?_⟩
  · rw [isAttached_eq afterRooted.linked afterRooted.isTop.top] at isLeft
    rw [isAttached_eq linked rooted.isTop.top]
    exact (loses.lost allocated isLeft).1
  · have swapped := edited.node id
    rw [grows.node (rooted.allocated_of_isAttached isAttached)] at swapped
    exact swapped.rebuilt
  · exact swap_of_ne (ne_old (rooted.allocated_of_isAttached isAttached) isLeft)
  · by_cases isOld : id = old
    · rw [isOld, swap_self, Option.mem_toList] at member
      exact .inr ⟨(isNew n member).new, edited.allocated.mpr (possible.allocated n member)⟩
    · rw [swap_of_ne isOld] at member
      exact .inl (List.mem_singleton.mp member)
  · refine swap_of_ne fun isOld => ?_
    rw [isOld, isAttached_eq linked rooted.isTop.top, attached] at isOutside
    cases isOutside
  · have isAllocated := rooted.allocated_of_isAttached isAttached
    have sameRole : grown.role id = p.tree.role id := by
      rw [isAttached_eq linked rooted.isTop.top] at isAttached
      exact ((grows.unchanged linked steady.isTop).alike linked steady.isTop.top).role linked
        grows.linked isAttached
    rw [← grows.parent? isAllocated, ← sameRole]
    by_cases isOld : id = old
    · rw [isOld, swap_self, Option.mem_toList] at member
      obtain rfl := member
      rw [isOld]
      exact ⟨edited.parent?_new possible rfl, edited.role_new grows.linked possible⟩
    · rw [swap_of_ne isOld] at member
      obtain rfl := List.mem_singleton.mp member
      rw [isAttached_eq afterRooted.linked afterRooted.isTop.top] at isLeft
      have stays : grown.Stays old new n := by
        refine ⟨?_, ?_⟩
        · rw [(grows.alike linked).isWithin linked grows.linked isAllocated]
          exact (loses.lost isAllocated isLeft).2
        · rw [Bool.eq_false_iff]
          intro incoming
          obtain ⟨m, isSome, within⟩ := Tree.isIncoming_iff.mp incoming
          rw [grows.not_isWithin_new linked isAllocated (isNew m isSome).new] at within
          cases within
      exact ⟨edited.parent?_of_stays stays,
        (edited.alike grows.linked possible).role grows.linked afterSteady.linked stays⟩

variable (recomposed : p.Recomposed q becomes)

include recomposed

theorem allocated (allocated : p.tree.Allocated id) : q.tree.Allocated id :=
  Nat.lt_of_lt_of_le allocated recomposed.size

/-- What is left is of the same kind. -/
theorem identifier? (attached : p.isAttached id = true) (isLeft : q.isAttached id = true) :
    (q.node id).identifier? = (p.node id).identifier? := by
  rw [← Node.identifier?_tag, (recomposed.node attached isLeft).tag, Node.identifier?_tag]

theorem role (attached : p.isAttached id = true) (isLeft : q.isAttached id = true) :
    q.tree.role id = p.tree.role id :=
  (recomposed.place attached
    (by rw [recomposed.stays attached isLeft]; exact List.mem_singleton_self _) isLeft).2

theorem trans (rooted : p.Rooted) (further : q.Recomposed r next) :
    p.Recomposed r fun id => (becomes id).flatMap next where
  root := further.root.trans recomposed.root
  size := recomposed.size.trans further.size
  back isOld isLeft := recomposed.back isOld (further.back (recomposed.allocated isOld) isLeft)
  node {id} attached isLeft := by
    have between := further.back (recomposed.allocated (rooted.allocated_of_isAttached attached))
      isLeft
    exact (recomposed.node attached between).trans (further.node between isLeft)
  stays {id} attached isLeft := by
    have between := further.back (recomposed.allocated (rooted.allocated_of_isAttached attached))
      isLeft
    rw [recomposed.stays attached between, List.flatMap_singleton, further.stays between isLeft]
  fresh {id last} member := by
    obtain ⟨new, isNew, isLast⟩ := List.mem_flatMap.mp member
    rcases further.fresh isLast with rfl | ⟨isFresh, allocated⟩
    · exact (recomposed.fresh isNew).imp_right fun ⟨isFresh, allocated⟩ =>
        ⟨isFresh, further.allocated allocated⟩
    · exact .inr ⟨fun isOld => isFresh (recomposed.allocated isOld), allocated⟩
  outside {id} isOld isOutside := by
    have still : q.isAttached id = false := by
      rw [Bool.eq_false_iff] at isOutside ⊢
      exact fun attached => isOutside (recomposed.back isOld attached)
    rw [recomposed.outside isOld isOutside, List.flatMap_singleton,
      further.outside (recomposed.allocated isOld) still]
  place {id last} attached member isLeft := by
    obtain ⟨new, isNew, isLast⟩ := List.mem_flatMap.mp member
    have isOld : q.tree.Allocated new := by
      rcases recomposed.fresh isNew with rfl | ⟨-, allocated⟩
      · exact recomposed.allocated (rooted.allocated_of_isAttached attached)
      · exact allocated
    have between : q.isAttached new = true := by
      by_contra isOutside
      rw [Bool.not_eq_true] at isOutside
      rw [further.outside isOld isOutside] at isLast
      obtain rfl := List.mem_singleton.mp isLast
      rw [further.back isOld isLeft] at isOutside
      cases isOutside
    obtain ⟨parent, role⟩ := recomposed.place attached isNew between
    obtain ⟨parentLast, roleLast⟩ := further.place between isLast isLeft
    exact ⟨parentLast.trans parent, roleLast.trans role⟩

theorem isWithin_above (rooted : p.Rooted) (afterRooted : q.Rooted)
    (attached : p.isAttached id = true) (member : new ∈ becomes id)
    (isLeft : q.isAttached new = true) (isOld : p.tree.Allocated outer)
    (within : q.tree.isWithin new outer = true) : p.tree.isWithin id outer = true := by
  induction id using rooted.linked.induction generalizing new with
  | step id induction =>
    rcases Tree.isWithin_iff.mp within with rfl | above
    · rcases recomposed.fresh member with rfl | ⟨isFresh, -⟩
      · exact Tree.isWithin_self
      · exact absurd isOld isFresh
    · obtain ⟨parent, held, place⟩ := afterRooted.linked.mem_ancestors_iff.mp above
      have heldBefore := (recomposed.place attached member isLeft).1.symm.trans held
      have attachedParent := rooted.isAttached_parent attached heldBefore
      have leftParent := afterRooted.isAttached_parent isLeft held
      refine rooted.linked.isWithin_trans (rooted.linked.isWithin_of_parent heldBefore) ?_
      exact induction parent heldBefore attachedParent
        (by rw [recomposed.stays attachedParent leftParent]; exact List.mem_singleton_self _)
        leftParent (Tree.isWithin_iff.mpr (place.imp_left Eq.symm))

end Recomposed

theorem Taken.recomposed (taken : p.Taken target q) (steady : p.Steady) (afterSteady : q.Steady) :
    ∃ new, p.Recomposed q (swap (p.leaving target) new) := by
  have attached := taken.attached_leaving
  have root := taken.removed.root
  rcases taken.removed.tree with ⟨edited, possible⟩ | ⟨edited, possible, -⟩
  · exact ⟨none, .of_edited steady afterSteady (.refl steady.linked) edited possible root
      attached nofun⟩
  · obtain ⟨grows, loose, -⟩ := grows_withEmpty taken.linked
    exact ⟨_, .of_edited steady afterSteady grows edited possible root attached fun n isSome =>
      Option.some.inj isSome ▸ loose⟩

theorem Rewording.recomposed (rewording : p.Rewording site piece grown q) :
    p.Recomposed q (swap site (some piece)) :=
  .of_edited rewording.steady rewording.afterSteady rewording.grows rewording.edited
    rewording.possible rewording.root rewording.attached
    fun _ isSome => Option.some.inj isSome ▸ rewording.loose

/-! ### Uses that come to stand for new nodes -/

/-- Certain uses stand for new nodes of one spelling, and all else stands for itself. -/
structure Fills (p q : Program) (uses : NodeId → Prop) (leaf : Node NodeId)
    (becomes : NodeId → List NodeId) : Prop extends p.Recomposed q becomes where
  used : ∀ {id}, p.isAttached id = true → uses id →
    ∃ new, becomes id = [new] ∧ ¬p.tree.Allocated new ∧ q.isAttached new = true ∧ q.node new = leaf
  unused : ∀ {id}, p.isAttached id = true → ¬uses id → becomes id = [id] ∧ q.isAttached id = true

namespace Fills

variable {uses also : NodeId → Prop}

theorem start (p : Program) (leaf : Node NodeId) (empty : ∀ id, ¬uses id) :
    p.Fills p uses leaf fun id => [id] where
  toRecomposed := .refl p
  used {id} _ isUse := absurd isUse (empty id)
  unused attached _ := ⟨rfl, attached⟩

theorem congr (fills : p.Fills q uses leaf becomes) (same : ∀ id, also id ↔ uses id) :
    p.Fills q also leaf becomes where
  toRecomposed := fills.toRecomposed
  used attached isUse := fills.used attached ((same _).mp isUse)
  unused attached notUse := fills.unused attached fun isUse => notUse ((same _).mpr isUse)

theorem put (fills : p.Fills q uses leaf becomes) (rooted : p.Rooted)
    (childless : leaf.children = []) (attached : p.isAttached site = true) (notYet : ¬uses site)
    (rewording : q.Rewording site piece grown r) (isLeaf : grown.node piece = leaf) :
    p.Fills r (fun id => id = site ∨ uses id) leaf
      fun id => (becomes id).flatMap (swap site (some piece)) := by
  have reworded := rewording.reworded
  have isNew : ¬p.tree.Allocated piece := fun isOld => rewording.loose.new (fills.allocated isOld)
  have keeps {id : NodeId} (isLeft : q.isAttached id = true) (different : id ≠ site) :
      r.isAttached id = true :=
    reworded.attached_of_kept isLeft (Node.exchange_of_ne different)
  refine ⟨fills.trans rooted rewording.recomposed, fun {id} isAttached isUse => ?_,
    fun {id} isAttached notUse => ?_⟩
  · by_cases isSite : id = site
    · obtain ⟨alone, still⟩ := fills.unused attached notYet
      have placed := reworded.attached still
      rw [Node.exchange, if_pos rfl] at placed
      refine ⟨piece, ?_, isNew, placed, rewording.node_piece.trans isLeaf⟩
      rw [isSite, alone, List.flatMap_singleton, swap_self, Option.toList_some]
    · obtain ⟨new, alone, isFresh, still, spelled⟩ := fills.used isAttached
        (isUse.resolve_left isSite)
      have different : new ≠ site :=
        fun same => isFresh (same ▸ rooted.allocated_of_isAttached attached)
      refine ⟨new, ?_, isFresh, keeps still different, ?_⟩
      · rw [alone, List.flatMap_singleton, swap_of_ne different]
      · rw [reworded.node still (Node.exchange_of_ne different), spelled, Node.map_eq_self]
        simp [childless]
  · obtain ⟨notSite, notUse⟩ := not_or.mp notUse
    obtain ⟨alone, still⟩ := fills.unused isAttached notUse
    exact ⟨by rw [alone, List.flatMap_singleton, swap_of_ne notSite], keeps still notSite⟩

end Fills

/-! ### Declarators that go away -/

/-- Certain nodes have gone away. What lay in none of them stands for itself, up to declarations,
which go away with their last declarator. -/
structure Rids (p q : Program) (ids : List NodeId) (becomes : NodeId → List NodeId) : Prop
    extends p.Recomposed q becomes where
  gone : ∀ id ∈ ids, q.isAttached id = false
  kept : ∀ {id}, p.isAttached id = true → (p.node id).isVariableDeclaration = false →
    (∀ d ∈ ids, p.tree.isWithin id d = false) → becomes id = [id] ∧ q.isAttached id = true

namespace Rids

theorem start (p : Program) : p.Rids p [] fun id => [id] where
  toRecomposed := .refl p
  gone := nofun
  kept attached _ _ := ⟨rfl, attached⟩

theorem take (rids : p.Rids q ids becomes) (steady : p.Steady) (between : q.Steady)
    (after : r.Steady) (allocated : ∀ id ∈ ids ++ [declarator], p.tree.Allocated id)
    (taken : q.Taken declarator r) :
    ∃ further, p.Rids r (ids ++ [declarator]) further := by
  have rooted := steady.sound.rooted
  have betweenRooted := between.sound.rooted
  have afterRooted := after.sound.rooted
  obtain ⟨new, recomposed⟩ := taken.recomposed between after
  refine ⟨_, rids.trans rooted recomposed, fun id member => ?_,
    fun {id} attached notDeclaration outside => ?_⟩
  · rcases List.mem_append.mp member with isOlder | isLast
    · rw [Bool.eq_false_iff]
      intro still
      have isLeft := recomposed.back (rids.allocated (allocated id member)) still
      rw [rids.gone id isOlder] at isLeft
      cases isLeft
    · rw [List.mem_singleton.mp isLast]
      exact taken.isAttached_eq_false afterRooted
  · obtain ⟨alone, isLeft⟩ := rids.kept attached notDeclaration fun d member =>
      outside d (List.mem_append_left _ member)
    have notWithin : q.tree.isWithin id declarator = false := by
      rw [Bool.eq_false_iff]
      intro within
      have above := rids.isWithin_above rooted betweenRooted attached
        (by rw [alone]; exact List.mem_singleton_self _) isLeft (allocated _ (by simp)) within
      rw [outside declarator (by simp)] at above
      cases above
    have stays : q.tree.isWithin id (q.leaving declarator) = false := by
      rcases between.leaving_cases declarator with same | ⟨isDeclaration, only⟩
      · rwa [same]
      · rw [Bool.eq_false_iff]
        intro within
        have different : id ≠ q.leaving declarator := by
          rintro rfl
          rw [← Node.isVariableDeclaration_tag, (rids.node attached isLeft).tag,
            Node.isVariableDeclaration_tag, notDeclaration] at isDeclaration
          cases isDeclaration
        obtain ⟨child, member, below⟩ := between.linked.exists_child within different
        rw [show (q.tree.node (q.leaving declarator)).children = _ from only, List.mem_singleton]
          at member
        rw [member, notWithin] at below
        cases below
    have different : id ≠ q.leaving declarator := by
      rintro rfl
      rw [Tree.isWithin_self] at stays
      cases stays
    refine ⟨by rw [alone, List.flatMap_singleton, swap_of_ne different], ?_⟩
    rw [isAttached_eq betweenRooted.linked betweenRooted.isTop.top] at isLeft
    rw [isAttached_eq afterRooted.linked afterRooted.isTop.top]
    exact (taken.loses.kept isLeft stays).1

end Rids

end Program

end Unravel
