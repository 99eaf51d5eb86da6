import Unravel.Proofs.Simplify.Lighten
import Unravel.Proofs.Tree.Copy
import Unravel.Proofs.Tree.Edit

/-!
Operator proxies: every call that becomes an operator and every definition that goes away makes the
program smaller. That a definition can be removed rests on properties standing in objects only
(`Tree.HousesProperties`).
-/

namespace Unravel

/-! ### Properties stand in objects -/

namespace Node

variable {α β : Type}

def isProperty : Node α → Bool
  | property .. => true
  | _ => false

def isObject : Node α → Bool
  | object _ => true
  | _ => false

theorem isProperty_tag (n : Node α) : n.tag.isProperty = n.isProperty := by cases n <;> rfl

theorem isObject_tag (n : Node α) : n.tag.isObject = n.isObject := by cases n <;> rfl

theorem isProperty_congr {m : Node α} {n : Node β} (same : m.tag = n.tag) :
    m.isProperty = n.isProperty := by
  rw [← isProperty_tag, same, isProperty_tag]

theorem isObject_congr {m : Node α} {n : Node β} (same : m.tag = n.tag) :
    m.isObject = n.isObject := by
  rw [← isObject_tag, same, isObject_tag]

end Node

namespace Tree

variable {t after : Tree} {root old id : NodeId} {node : Node NodeId}

/-- Every property that is held by something is held by an object. -/
def HousesProperties (t : Tree) : Prop :=
  ∀ id, ∀ child ∈ (t.node id).children, (t.node child).isProperty = true →
    (t.node id).isObject = true

def housesWell (t : Tree) : Bool :=
  (List.range t.size).all fun index =>
    (t.node ⟨index⟩).isObject ||
    (t.node ⟨index⟩).children.all fun child => !(t.node child).isProperty

theorem housesProperties_of_housesWell (passes : t.housesWell = true) : t.HousesProperties := by
  intro id child member isProperty
  have at_ :=
    List.all_eq_true.mp passes id.index (List.mem_range.mpr (allocated_of_mem_children member))
  rw [Bool.or_eq_true, List.all_eq_true] at at_
  exact at_.resolve_right fun none => by simpa [isProperty] using none child member

namespace HousesProperties

theorem alloc (housed : t.HousesProperties) (linked : t.Linked)
    (allocated : ∀ child ∈ node.children, t.Allocated child)
    (free : ∀ child ∈ node.children, (t.node child).isProperty = false) :
    (Tree.alloc node t).2.HousesProperties := by
  intro id child member isProperty
  have old {id : NodeId} (isAllocated : t.Allocated id) :
      (Tree.alloc node t).2.node id = t.node id := by
    rw [node_alloc, if_neg]
    rintro rfl
    exact t.not_allocated_next isAllocated
  by_cases isNext : id = ⟨t.size⟩
  · rw [isNext, node_alloc, if_pos rfl] at member
    rw [old (allocated child member), free child member] at isProperty
    cases isProperty
  · rw [node_alloc, if_neg isNext] at member ⊢
    rw [old (allocated_of_parent? (linked.mem_children.mp member))] at isProperty
    exact housed id child member isProperty

theorem copied {copyOf : NodeId → NodeId} (housed : t.HousesProperties) (linked : t.Linked)
    (copied : t.Copied root copyOf after) : after.HousesProperties := by
  intro id child member isProperty
  have held := copied.grows.linked.mem_children.mp member
  by_cases isOld : t.Allocated id
  · rw [copied.grows.node isOld] at member ⊢
    rw [copied.grows.node (allocated_of_parent? (linked.mem_children.mp member))] at isProperty
    exact housed id child member isProperty
  · obtain ⟨origin, within, rfl⟩ := copied.all id isOld (copied.grows.linked.allocated_parent held)
    rw [copied.node origin within, Node.children_map, List.mem_map] at member
    obtain ⟨originChild, isChild, rfl⟩ := member
    have below := linked.isWithin_trans (linked.isWithin_of_parent (linked.mem_children.mp isChild))
      within
    rw [copied.node originChild below, Node.isProperty_congr (Node.tag_map ..)] at isProperty
    rw [copied.node origin within, Node.isObject_congr (Node.tag_map ..)]
    exact housed origin originChild isChild isProperty

theorem edited {new : Option NodeId} (housed : t.HousesProperties) (edited : t.Edited after old new)
    (free : ∀ n, new = some n → (t.node n).isProperty = false) : after.HousesProperties := by
  intro id child member isProperty
  rw [(edited.node id).children, mem_flatMap_swap] at member
  rw [Node.isProperty_congr (edited.tag child)] at isProperty
  rw [Node.isObject_congr (edited.tag id)]
  rcases member with ⟨member, -⟩ | ⟨-, isNew⟩
  · exact housed id child member isProperty
  · rw [free child isNew.symm] at isProperty
    cases isProperty

end HousesProperties

end Tree

/-! ### Operator proxies -/

namespace Program

variable {p after : Program} {target replacement : NodeId}

theorem Replaced.houses (replaced : p.Replaced target replacement after)
    (housed : p.tree.HousesProperties) (free : (p.tree.node replacement).isProperty = false) :
    after.tree.HousesProperties := by
  have edited := replaced.placed.edited
  have linked := replaced.linked
  rw [unwrap] at edited
  split at edited
  · exact housed.edited edited fun n isNew => Option.some.inj isNew ▸ free
  · rename_i inner sole
    rw [Option.ite_none_right_eq_some] at sole
    split at edited
    · rename_i tree taken
      have detached := Tree.edited_detach linked taken
      have innerFree : (p.tree.node inner).isProperty = false := by
        rw [Bool.eq_false_iff]
        intro isProperty
        have member := linked.mem_children.mpr (parent?_of_soleStatement? linked sole.2)
        have isObject := housed replacement inner member isProperty
        rw [soleStatement?] at sole
        split at sole
        · rename_i block
          rw [show p.tree.node replacement = _ from block] at isObject
          cases isObject
        · cases sole.2
      refine (housed.edited detached (by simp)).edited edited fun n isNew => ?_
      rw [← Option.some.inj isNew, Node.isProperty_congr (detached.tag inner), innerFree]
    · exact housed.edited edited fun n isNew => Option.some.inj isNew ▸ free

theorem Taken.houses (taken : p.Taken target after) (housed : p.tree.HousesProperties) :
    after.tree.HousesProperties := by
  rcases taken.removed.tree with ⟨edited, -⟩ | ⟨edited, -, -⟩
  · exact housed.edited edited (by simp)
  · obtain ⟨-, -, isEmpty⟩ := grows_withEmpty taken.linked
    have withEmpty : (withEmpty p.tree).HousesProperties :=
      housed.alloc taken.linked (by simp [Node.children]) (by simp [Node.children])
    refine withEmpty.edited edited fun n isNew => ?_
    rw [← Option.some.inj isNew, isEmpty]
    rfl

end Program

namespace Proxy

open SimplifyM

variable {p : Program} {t : Tree}

theorem applied_eq (proxy : OperatorProxy) (first second : NodeId) (t : Tree) :
    applied proxy first second t =
      Tree.alloc (if proxy.swapped then .binary proxy.operator
          (Tree.copyMapped second (Tree.copyMapped first t).2).1.1 (Tree.copyMapped first t).1.1
        else .binary proxy.operator
          (Tree.copyMapped first t).1.1 (Tree.copyMapped second (Tree.copyMapped first t).2).1.1)
        (Tree.copyMapped second (Tree.copyMapped first t).2).2 := by
  unfold applied
  cases proxy.swapped <;> rfl

theorem houses_applied (housed : t.HousesProperties) (linked : t.Linked) (nonempty : t.size ≠ 0)
    (proxy : OperatorProxy) {first second : NodeId} (secondAllocated : t.Allocated second)
    (firstFree : (t.node first).isProperty = false)
    (secondFree : (t.node second).isProperty = false) :
    (applied proxy first second t).2.HousesProperties ∧
      ((applied proxy first second t).2.node (applied proxy first second t).1).isProperty =
        false := by
  obtain ⟨firstCopied, isFirst⟩ := linked.copied nonempty first
  have grown := firstCopied.grows.size
  obtain ⟨secondCopied, isSecond⟩ := firstCopied.grows.linked.copied (by omega) second
  rw [applied_eq, isFirst, isSecond]
  clear isFirst isSecond
  generalize (Tree.copyMapped first t).1.2.of = firstCopy at *
  generalize (Tree.copyMapped first t).2 = between at *
  generalize (Tree.copyMapped second between).1.2.of = secondCopy at *
  generalize (Tree.copyMapped second between).2 = mid at *
  have free {before after : Tree} {root : NodeId} {copyOf : NodeId → NodeId}
      (copied : before.Copied root copyOf after) (isFree : (before.node root).isProperty = false) :
      (after.node (copyOf root)).isProperty = false := by
    rw [copied.node root Tree.isWithin_self, Node.isProperty_congr (Node.tag_map ..), isFree]
  have firstCopyFree := free firstCopied firstFree
  rw [← secondCopied.grows.node firstCopied.loose.allocated] at firstCopyFree
  have secondCopyFree :=
    free secondCopied (by rw [firstCopied.grows.node secondAllocated, secondFree])
  have firstThere := secondCopied.grows.allocated firstCopied.loose.allocated
  have secondThere := secondCopied.loose.allocated
  have houses := (housed.copied linked firstCopied).copied firstCopied.grows.linked secondCopied
  refine ⟨houses.alloc secondCopied.grows.linked ?_ ?_, ?_⟩
  · split <;> simp [Node.children, firstThere, secondThere]
  · split <;> simp [Node.children, firstCopyFree, secondCopyFree]
  · rw [Tree.node_alloc]
    refine (congrArg Node.isProperty (if_pos rfl)).trans ?_
    split <;> rfl

theorem adds_applied (linked : t.Linked) (proxy : OperatorProxy) {first second : NodeId}
    (firstAllocated : t.Allocated first) (secondAllocated : t.Allocated second) :
    t.Adds allNodes [] Tree.piece (applied proxy first second)
      (1 + t.weight allNodes second + t.weight allNodes first) := by
  refine .bind (Tree.adds_copy linked first firstAllocated) fun first =>
    .bind ((Tree.adds_copy linked second secondAllocated).frame (Tree.piece first)) fun second => ?_
  split
  · exact Tree.adds_alloc (.binary proxy.operator second first) (by simp [Node.part])
      fun _ => le_rfl
  · exact (Tree.adds_alloc (.binary proxy.operator first second) (by simp [Node.part])
      fun _ => le_rfl).perm (.swap first second [])

theorem lightens_callStep {call : NodeId} (steady : p.Steady) (housed : p.tree.HousesProperties)
    (attached : p.tree.isWithin call p.root = true) : Surely p (callStep call) fun changed q =>
      q.tree.HousesProperties ∧ p.Lightens allNodes changed q := by
  refine .program (.context fun c => ?_)
  split
  · exact .pure steady ⟨housed, .refl p⟩
  · rename_i proxy first second found
    obtain ⟨callee, shape⟩ := of_call? found
    rw [Program.node] at shape
    have linked := steady.linked
    have held (child : NodeId) (isChild : child ∈ [callee, first, second]) :
        p.tree.parent? child = some call := by
      rw [← linked.mem_children, shape]
      exact isChild
    have free (child : NodeId) (isChild : child ∈ [callee, first, second]) :
        (p.tree.node child).isProperty = false := by
      rw [Bool.eq_false_iff]
      intro isProperty
      have isObject := housed call child (linked.mem_children.mpr (held child isChild)) isProperty
      rw [shape] at isObject
      cases isObject
    have firstThere := Tree.allocated_of_parent? (held first (by simp))
    have secondThere := Tree.allocated_of_parent? (held second (by simp))
    have weighs : p.tree.weight allNodes call = 1 + (p.tree.weight allNodes callee +
        (p.tree.weight allNodes first + (p.tree.weight allNodes second + 0))) :=
      linked.weight_of_node allNodes (by simp) shape
    have positive := linked.weight_pos (Tree.allocated_of_parent? (held callee (by simp)))
    have notRoot : call ≠ p.root := steady.ne_root fun body same => by
      rw [show p.node call = _ from shape] at same
      cases same
    refine Surely.offer steady (adds_applied linked proxy firstThere secondThere) attached notRoot
      fun offers after leads => ?_
    obtain ⟨houses, isFree⟩ :=
      houses_applied housed linked steady.nonempty proxy secondThere (free first (by simp))
        (free second (by simp))
    have isPlain : p.Free call := .of_isPlain steady (by rw [show p.node call = _ from shape]; rfl)
    have loose := offers.building.loose _ (List.mem_singleton_self _)
    refine .mono (Surely.recorded after (isPlain.leads leads) loose.allocated offers.possible) ?_
    refine fun changed r replaced => ⟨replaced.1.houses houses isFree, ?_⟩
    have exchanged : p.Exchanged allNodes _ call r := ⟨_, _, offers, replaced.1⟩
    refine exchanged.lightens steady ?_
    rw [weighs]
    omega

theorem removable_definition {id : NodeId} (steady : p.Steady) (housed : p.tree.HousesProperties)
    (attached : p.tree.isWithin id p.root = true)
    (form : (p.tree.node id).tag = .expressionStatement () ∨
      ∃ computed, (p.tree.node id).tag = .property () () computed) :
    (p.Removable id ∧ p.leaving id = id) ∧ 1 < p.tree.weight allNodes id := by
  have linked := steady.linked
  have larger (child : NodeId) (isChild : child ∈ (p.tree.node id).children) :
      1 < p.tree.weight allNodes id := by
    have held := linked.mem_children.mp isChild
    have lighter := linked.weight_lt_of_parent? held
    have positive := linked.weight_pos (Tree.allocated_of_parent? held)
    omega
  cases shape : p.tree.node id with
  | expressionStatement expression =>
    refine ⟨steady.removable_statement attached ?_, larger expression ?_⟩
    · rw [Program.node, shape]
      rfl
    · rw [shape]
      exact List.mem_singleton_self _
  | property key value computed =>
    refine ⟨?_, larger key ?_⟩
    · obtain ⟨parent, held, -⟩ := steady.exists_parent_leaving attached
        (steady.ne_root fun body same => by rw [Program.node, shape] at same; cases same)
        (by rw [Program.node, shape]; rfl)
      have isObject := housed parent id (linked.mem_children.mpr held) (by rw [shape]; rfl)
      cases parentShape : p.tree.node parent with
      | object properties => exact steady.removable_property attached held parentShape
      | _ =>
        rw [parentShape] at isObject
        cases isObject
    · rw [shape]
      exact List.mem_cons_self ..
  | _ =>
    rw [shape] at form
    rcases form with isStatement | ⟨_, isProperty⟩
    · cases isStatement
    · cases isProperty

theorem lightens_removeStep {d : Definition} (steady : p.Steady) (housed : p.tree.HousesProperties)
    (form : (p.tree.node d.node).tag = .expressionStatement () ∨
      ∃ computed, (p.tree.node d.node).tag = .property () () computed) :
    Surely p (removeStep d)
      fun changed q => q.tree.HousesProperties ∧ p.Lightens allNodes changed q := by
  refine .program (.context fun c => ?_)
  split
  · rename_i isSpent
    rw [Proxy.isSpent, Bool.and_eq_true, Bool.and_eq_true, Bool.and_eq_true] at isSpent
    have attached := isSpent.1.1.1
    rw [Program.isAttached_eq steady.linked steady.isTop.top] at attached
    obtain ⟨⟨removable, leaves⟩, larger⟩ := removable_definition steady housed attached form
    refine .snippet fun text => .bind (Surely.remove steady removable) fun _ q steady _ taken => ?_
    refine .bind (.record _ _ _ steady) fun _ _ steady _ same => .pure steady ?_
    subst same
    refine ⟨taken.1.houses housed, .of_lt (taken.1.weight_carried allNodes.carries_lt ?_ ?_)⟩
    · rw [leaves]
      omega
    · rw [leaves]
      exact larger
  · exact .pure steady ⟨housed, .refl p⟩

theorem lightens (steady : p.Steady) (housed : p.tree.HousesProperties) :
    Surely p run fun changed q => q.tree.HousesProperties ∧ p.Lightens allNodes changed q := by
  have registered (definitions : List Definition) :
      Surely p (register definitions) fun _ q => q = p :=
    fun _ => ⟨steady, .refl p, rfl⟩
  refine .program (.bind (registered _) fun _ start _ _ same => ?_)
  subst same
  refine .bind (Surely.visit (fun q => q.tree.HousesProperties) steady housed
    fun call q steady _ housed _ attached => lightens_callStep steady housed attached)
    fun expanded q steadyAfter further result => ?_
  refine .bind (Surely.anyChange (W := allNodes) (fun _ q => q.tree.HousesProperties)
    steadyAfter result.1 fun d _ r isDefinition steadyThen leads housed => ?_)
    fun removed r steady _ done => .pure steady ⟨done.1, ?_⟩
  · obtain ⟨id, -, found⟩ := List.mem_filterMap.mp isDefinition
    obtain ⟨rfl, shape⟩ := of_definition? found
    have form : (start.tree.node d.node).tag = .expressionStatement () ∨
        ∃ computed, (start.tree.node d.node).tag = .property () () computed := by
      rcases shape with ⟨_, shape⟩ | ⟨_, _, computed, shape⟩
      · exact .inl (by rw [show start.tree.node d.node = _ from shape]; rfl)
      · exact .inr ⟨computed, by rw [show start.tree.node d.node = _ from shape]; rfl⟩
    have allocated : start.tree.Allocated d.node := by
      refine Tree.allocated_of_node_ne fun isEmpty => ?_
      rw [isEmpty] at form
      rcases form with isStatement | ⟨_, isProperty⟩
      · cases isStatement
      · cases isProperty
    rw [← (further.trans leads).tag allocated] at form
    exact lightens_removeStep steadyThen housed form
  · have both := result.2.trans done.2
    rwa [Bool.or_comm] at both

end Proxy

end Unravel
