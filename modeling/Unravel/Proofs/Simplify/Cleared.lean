import Unravel.Proofs.Program.Remnant
import Unravel.Proofs.Simplify.StatementWeight

/-!
Statements that are removed one after the other (`Program.Clears`). If none of them lies within
another one, each leaves with all that it holds, and everything else stays what it is and where it
is (`Program.Cleared`). Something new may come into the place of another node besides
(`Program.Regrouped`). What is left then stands where it stood, behind the new node if it was behind
the old one (`Program.Regrouped.precedes`).
-/

namespace Unravel

variable {o p mid q r : Program} {may : NodeId → Prop} {gone others held : List NodeId}
  {id target : NodeId} {grown : Tree}

theorem Node.mem_children_of_statements? {α : Type} {n : Node α} {statement : α}
    {statements : List α} (isList : n.statements? = some statements)
    (member : statement ∈ statements) : statement ∈ n.children := by
  cases n <;> simp_all [statements?, children]

theorem Node.part_of_statements? {α : Type} {n : Node α} (isList : n.statements?.isSome = true)
    (part : Part) :
    n.part part = [] := by
  cases n <;> simp_all [statements?] <;> cases part <;> rfl

theorem Node.isSome_statements?_congr {α β : Type} {n : Node α} {n' : Node β}
    (same : n'.tag = n.tag) :
    n'.statements?.isSome = n.statements?.isSome := by
  have ofTag {γ : Type} (n : Node γ) : n.tag.statements?.isSome = n.statements?.isSome := by
    cases n <;> rfl
  rw [← ofTag n', same, ofTag n]

theorem Node.statements?_of_detachChild? {α : Type} [DecidableEq α] {n after : Node α} {old : α}
    {statements : List α} (isList : n.statements? = some statements) (member : old ∈ statements)
    (detached : n.detachChild? old = some after) :
    after.statements? = some (statements.erase old) := by
  cases n <;> simp_all [statements?, detachChild?, detachable] <;> subst detached <;> rfl

theorem Tree.statements?_of_detach? {t after : Tree} {old list : NodeId} {statements : List NodeId}
    (linked : t.Linked) (isList : (t.node list).statements? = some statements)
    (member : old ∈ statements) (detached : t.detach? old = some after) :
    (after.node list).statements? = some (statements.erase old) := by
  simp only [detach?, bind, Option.bind_eq_some_iff] at detached
  obtain ⟨parent, held, node, found, result⟩ := detached
  cases result
  have isChild := Node.mem_children_of_statements? isList member
  rw [linked.mem_children, held, Option.some.injEq] at isChild
  subst isChild
  rw [node_setParent, node_setNode _ (linked.allocated_parent held), if_pos rfl]
  exact Node.statements?_of_detachChild? isList member found

namespace Program

variable {list : NodeId} {statements : List NodeId}

theorem detach?_of_remove (sound : p.Sound) (isList : (p.node list).statements? = some statements)
    (member : target ∈ statements) (alone : p.leaving target = target)
    (done : p.remove target = .ok q) : p.tree.detach? target = some q.tree := by
  have linked := sound.linked
  have held := linked.mem_children.mp (Node.mem_children_of_statements? isList member)
  have isListed : ∃ index, (p.tree.node list).slotOf target = some (.list index) := by
    obtain ⟨index, found⟩ := Option.isSome_iff_exists.mp (List.isSome_idxOf?.mpr member)
    refine ⟨index, ?_⟩
    cases shape : p.node list <;> simp_all [Node.statements?, Node.slotOf,
      Node.detachable, Program.node]
  obtain ⟨index, isListed⟩ := isListed
  have place : p.tree.slot? target = some (list, .list index) := by
    rw [Tree.slot?, held, Option.bind_eq_bind, Option.bind_some, Option.bind_eq_bind, isListed,
      Option.bind_some]
    rfl
  rw [Program.remove, ← leaving, alone] at done
  simp only [ite_throw_eq_ok_iff, place, tree_removeReferences] at done
  obtain ⟨attached, done⟩ := done
  rw [Bool.not_eq_true, Bool.not_eq_false', isAttached_eq linked sound.isTop.top] at attached
  split at done
  · cases done
  · rename_i detached
    split at done
    · obtain ⟨r, made, tree, -⟩ := (sound.detach attached detached).1.rescope
      have same : r = q := Except.ok.inj (made.symm.trans done)
      rw [← same, tree]
      exact detached
    · cases done
      exact detached

/-- One removal after the other has succeeded. -/
inductive Clears : Program → List NodeId → Program → Prop where
  | done (p : Program) : Clears p [] p
  | step {p mid q : Program} {target : NodeId} {others : List NodeId}
      (removed : p.remove target = .ok mid) (rest : Clears mid others q) :
      Clears p (target :: others) q

def Inside (p : Program) (outers : List NodeId) (id : NodeId) :
    Prop := ∃ outer ∈ outers, p.tree.isWithin id outer = true

theorem Inside.of_parent {parent : NodeId} (linked : p.tree.Linked)
    (held : p.tree.parent? id = some parent) (inside : p.Inside gone parent) :
    p.Inside gone id := by
  obtain ⟨outer, member, within⟩ := inside
  exact ⟨outer, member, linked.isWithin_trans (linked.isWithin_of_parent held) within⟩

/-- Statements have left a program, and nothing else has. -/
structure Cleared (p : Program) (gone : List NodeId) (q : Program) : Prop where
  steady : q.Steady
  leads : p.Leads q
  top : ∀ {id}, p.tree.IsTop id → q.tree.IsTop id
  drops : Drops p p (p.Inside gone) q
  node : ∀ {id}, p.tree.Allocated id → (∀ other ∈ gone, other ∉ (p.node id).children) →
    q.node id = p.node id

theorem Taken.node_eq (taken : p.Taken target q) (allocated : p.tree.Allocated id)
    (notHeld : p.leaving target ∉ (p.node id).children) : q.node id = p.node id := by
  rcases taken.removed.tree with ⟨edited, -⟩ | ⟨edited, -⟩
  · exact edited.kept id notHeld
  · obtain ⟨grows, -⟩ := grows_withEmpty taken.linked
    have same : (withEmpty p.tree).node id = p.node id := grows.node allocated
    rw [← same] at notHeld ⊢
    exact edited.kept id notHeld

theorem Cleared.refl (steady : p.Steady) : p.Cleared [] p where
  steady := steady
  leads := .refl p
  top := id
  drops := ⟨fun attached _ => ⟨attached, rfl⟩, fun _ attached => ⟨attached, by simp [Inside]⟩⟩
  node _ _ := rfl

theorem Taken.cleared (taken : p.Taken target mid) (steady : p.Steady) (after : mid.Steady)
    (leads : p.Leads mid) (tops : ∀ id, p.tree.IsTop id → mid.tree.IsTop id)
    (isApart : p.Apart (target :: others)) (rest : mid.Cleared others q) :
    p.Cleared (target :: others) q := by
  have loses := taken.loses_statement steady isApart
  have first : Drops p p (fun id => p.tree.isWithin id target = true) mid := .of_loses loses id
  have second : Drops p mid (mid.Inside others) q := rest.drops.older leads.allocated
  refine ⟨rest.steady, leads.trans rest.leads, fun isTop => rest.top (tops _ isTop), ?_, ?_⟩
  · refine (first.trans second).congr fun id attached => ?_
    simp only [Inside, List.mem_cons, exists_eq_or_imp]
    refine or_congr_right' fun outside => exists_congr fun other => and_congr_right fun _ => ?_
    rw [loses.isWithin_eq steady.linked after.linked steady.isTop attached
      (Bool.eq_false_iff.mpr outside)]
  · intro id allocated notHeld
    rw [List.forall_mem_cons] at notHeld
    have first := taken.node_eq allocated (by rw [taken.leaving_eq steady isApart]; exact notHeld.1)
    rw [← first]
    exact rest.node (leads.allocated allocated) (by rw [first]; exact notHeld.2)

namespace Clears

theorem aligned (clears : p.Clears gone q) (aligned : o.Aligned may p) (isApart : p.Apart gone)
    (isMay : ∀ target ∈ gone, o.tree.Allocated target → may target) : o.Aligned may q := by
  induction clears with
  | done => exact aligned
  | @step p mid q target others removed _ induction =>
    rw [List.forall_mem_cons] at isMay
    have isStatement := isApart.isStatement target (List.mem_cons_self ..)
    have notPattern : (p.node target).isPattern = false := by
      cases shape : p.node target <;> simp_all [Node.isStatement, Node.isPattern]
    have leads := (aligned.steady.remove removed).2.1
    have taken := Taken.of_remove aligned.steady.sound removed
    have further := aligned.remove notPattern isMay.1 removed
    exact induction further (taken.apart aligned.steady isApart further.steady leads) isMay.2

theorem cleared (clears : p.Clears gone q) (steady : p.Steady) (isApart : p.Apart gone) :
    p.Cleared gone q := by
  induction clears with
  | done => exact .refl steady
  | step removed _ induction =>
    obtain ⟨after, leads, tops⟩ := steady.remove removed
    have taken := Taken.of_remove steady.sound removed
    exact taken.cleared steady after leads tops isApart
      (induction after (taken.apart steady isApart after leads))

theorem thins (clears : p.Clears gone q) (steady : p.Steady) (isApart : p.Apart gone)
    (isList : (p.node list).statements? = some statements) (inside : ∀ id ∈ gone, id ∈ statements) :
    (q.node list).statements? = some (statements.filter (· ∉ gone)) ∧
      (q.node list).children = (p.node list).children.filter (· ∉ gone) := by
  induction clears generalizing statements with
  | done => simpa using isList
  | @step p mid q target others removed _ induction =>
    obtain ⟨after, leads, -⟩ := steady.remove removed
    have taken := Taken.of_remove steady.sound removed
    rw [List.forall_mem_cons] at inside
    have detached := detach?_of_remove steady.sound isList inside.1
      (taken.leaving_eq steady isApart) removed
    have listNow := Tree.statements?_of_detach? steady.linked isList inside.1 detached
    have distinct := ObjectLiteral.nodup_statements steady.linked isList
    have different {other : NodeId} (member : other ∈ others) : other ≠ target := by
      rintro rfl
      have apart := (List.pairwise_cons.mp isApart.pairwise).1 other member
      rw [Tree.isWithin_self] at apart
      cases apart.1
    have both {l : List NodeId} (distinct : l.Nodup) :
        (l.erase target).filter (· ∉ others) = l.filter (· ∉ target :: others) := by
      rw [distinct.erase_eq_filter, List.filter_filter]
      refine List.filter_congr fun id _ => ?_
      by_cases id = target <;> simp [*]
    obtain ⟨further, children⟩ := induction after (taken.apart steady isApart after leads) listNow
      fun id member => (List.mem_erase_of_ne (different member)).mpr (inside.2 id member)
    have nodup := steady.linked.nodup_children list
    have first : (mid.node list).children = (p.node list).children.erase target :=
      ((Tree.edited_detach steady.linked detached).node list).children.trans
        (erase_eq_flatMap_swap nodup).symm
    exact ⟨further.trans (congrArg some (both distinct)), children.trans (first ▸ both nodup)⟩

end Clears

structure Thinned (p : Program) (grown : Tree) (gone : List NodeId) (r : Program) : Prop where
  aligned : p.Aligned (fun _ => True) r
  size : grown.size ≤ r.tree.size
  drops : Drops p p (p.Inside gone) r
  built : ∀ {id}, grown.Allocated id → ¬p.tree.Allocated id → r.node id = grown.node id
  node : ∀ {id}, p.tree.Allocated id → (∀ other ∈ gone, other ∉ (p.node id).children) →
    r.node id = p.node id
  thins : ∀ {list statements}, p.tree.Allocated list → (p.node list).statements? = some statements →
    (∀ id ∈ gone, id ∈ statements) →
    (r.node list).statements? = some (statements.filter (· ∉ gone)) ∧
      (r.node list).children = (p.node list).children.filter (· ∉ gone)

theorem Clears.thinned (clears : Clears { p with tree := grown } gone r) (steady : p.Steady)
    (isApart : p.Apart gone) (building : p.tree.Building held grown) : p.Thinned grown gone r := by
  have linked := steady.linked
  have isTop := steady.isTop
  have grows := building.grows
  have grownSteady := (steady.grow building).1
  have apartGrown := isApart.grow linked isTop grows
  have cleared := clears.cleared grownSteady apartGrown
  have isOld {other : NodeId} (member : other ∈ gone) : p.tree.Allocated other :=
    linked.allocated_of_isWithin (isApart.attached other member) isTop.allocated
  have first : Drops p p (fun _ => False) { p with tree := grown } :=
    .elsewhere linked isTop grows.linked (grows.unchanged linked isTop)
  refine ⟨clears.aligned ((Aligned.start steady).extend grownSteady grows) apartGrown
    fun _ _ _ => trivial, cleared.leads.size,
    (first.trans (cleared.drops.older grows.allocated)).congr fun id attached => ?_,
    fun {id} allocated isNew => ?_, fun {id} allocated notHeld => ?_,
    fun {list statements} allocated isList inside => ?_⟩
  · rw [false_or]
    refine exists_congr fun other => and_congr_right fun member => ?_
    rw [grows.isWithin linked (isOld member)]
  · refine cleared.node allocated fun other member isChild => isNew ?_
    have held : grown.parent? other = some id := grows.linked.mem_children.mp isChild
    rw [grows.parent? (isOld member)] at held
    exact linked.allocated_parent held
  · have same : Program.node { p with tree := grown } id = p.node id := grows.node allocated
    rw [← same] at notHeld ⊢
    exact cleared.node (grows.allocated allocated) notHeld
  · have same : Program.node { p with tree := grown } list = p.node list := grows.node allocated
    rw [← same] at isList ⊢
    exact clears.thins grownSteady apartGrown isList inside

structure Regrouped (p r : Program) (gone : List NodeId) (target piece : NodeId)
    (q : Program) : Prop where
  steady : q.Steady
  leads : p.Leads q
  size : r.tree.size ≤ q.tree.size
  drops : Drops p p (fun id => p.Inside gone id ∨ p.tree.isWithin id target = true) q
  held : q.tree.parent? piece = p.tree.parent? target
  built : ∀ {id}, ¬p.tree.Allocated id → q.node id = r.node id
  node : ∀ {id}, p.tree.Allocated id → (∀ other ∈ gone, other ∉ (p.node id).children) →
    target ∉ (p.node id).children → q.node id = p.node id
  thins : ∀ {list statements}, p.tree.Allocated list → (p.node list).statements? = some statements →
    (∀ id ∈ gone, id ∈ statements) →
      (target ∉ (p.node list).children →
        (q.node list).statements? = some (statements.filter (· ∉ gone))) ∧
        (q.node list).children =
          ((p.node list).children.filter (· ∉ gone)).flatMap (swap target (some piece))

namespace Thinned

variable (thinned : p.Thinned grown gone r)

include thinned

theorem steady : r.Steady := thinned.aligned.steady

theorem leads : p.Leads r := thinned.aligned.leads

theorem adopt (node : Node NodeId)
    (loose : ∀ child ∈ node.children, r.tree.IsTop child ∧ child ≠ r.root)
    (isNew : ∀ child ∈ node.children, ¬p.tree.Allocated child) (distinct : node.children.Nodup)
    (plain : ∀ part ∈ [.target, .name, .params, .declarators], node.part part = []) :
    p.Thinned grown gone { r with tree := (Tree.alloc node r.tree).2 } := by
  have aligned := thinned.aligned.adopt loose isNew distinct plain
  have linked := thinned.steady.linked
  have isTop := thinned.steady.isTop
  have second : Drops p r (fun _ => False) { r with tree := (Tree.alloc node r.tree).2 } :=
    .elsewhere linked isTop aligned.steady.linked (linked.unchanged_alloc isTop loose)
  have same {id : NodeId} (allocated : r.tree.Allocated id) : (Tree.alloc node r.tree).2.node id =
      r.tree.node id :=
    Tree.node_alloc_of_allocated allocated
  refine ⟨aligned, ?_, (thinned.drops.trans second).congr fun _ _ => or_false _ ▸ .rfl,
    fun {id} allocated isOther => ?_, fun {id} allocated notHeld => ?_,
    fun {list statements} allocated => ?_⟩
  · rw [Tree.size_alloc]
    exact Nat.le_succ_of_le thinned.size
  · exact (same (Nat.lt_of_lt_of_le allocated thinned.size)).trans (thinned.built allocated isOther)
  · exact (same (thinned.leads.allocated allocated)).trans (thinned.node allocated notHeld)
  · have stays : Program.node { r with tree := (Tree.alloc node r.tree).2 } list = r.node list :=
      same (thinned.leads.allocated allocated)
    rw [stays]
    exact thinned.thins allocated

/-- Something new comes into the place of a node that is still there. -/
theorem replace {piece placed : NodeId} (steady : p.Steady) (free : p.Free target)
    (attached : p.tree.isWithin target p.root = true) (outside : ¬p.Inside gone target)
    (isNew : ¬p.tree.Allocated piece) (allocated : r.tree.Allocated piece)
    (whole : (p.node target).isStatement = false ∨ ∀ inner, r.node piece ≠ .block [inner])
    (done : r.replace target piece = .ok (placed, q)) : p.Regrouped r gone target piece q := by
  have linked := steady.linked
  have linkedNow := thinned.steady.linked
  have freeNow := free.leads thinned.leads
  obtain ⟨after, leads⟩ := thinned.steady.replace allocated freeNow.notBinding
    freeNow.notDeclaring done
  have replaced := Replaced.of_replace thinned.steady.sound allocated done
  have edited := replaced.edited (whole.imp_left fun notStatement => by
    rwa [Program.node, Node.isStatement_congr (thinned.leads.tag free.allocated)])
  have apart {id : NodeId} (isOld : p.tree.Allocated id) : r.tree.isWithin id piece = false := by
    rw [Bool.eq_false_iff]
    exact fun within => isNew (thinned.aligned.toRemnant.allocated_of_isWithin isOld within)
  obtain ⟨-, place⟩ := thinned.drops.kept attached outside
  have notTarget {id : NodeId} (isOther : ¬p.tree.Allocated id) :
      target ∉ (r.node id).children := by
    intro member
    have held := linkedNow.mem_children.mp member
    exact isOther (linked.allocated_parent (place.symm.trans held))
  refine ⟨after, thinned.leads.trans leads, leads.size,
    (thinned.drops.trans (replaced.drops apart)).congr fun id isNode => ?_, ?_,
    fun {id} isOther => edited.kept id (notTarget isOther), fun {id} isOld notHeld notTarget => ?_,
    fun {list statements} isOld isList inside => ?_⟩
  · refine or_congr_right' fun stays => ?_
    rw [thinned.drops.isWithin_eq linked linkedNow steady.isTop (Inside.of_parent linked) isNode
      stays]
  · rw [edited.parent?, if_neg (by rintro rfl; exact isNew free.allocated), if_pos rfl, place]
  · have same := thinned.node isOld notHeld
    rw [← same] at notTarget ⊢
    exact edited.kept id notTarget
  · obtain ⟨isListNow, children⟩ := thinned.thins isOld isList inside
    refine ⟨fun notHeld => ?_, ?_⟩
    · rw [Program.node, edited.kept list fun member => ?_]
      · exact isListNow
      · rw [show (r.tree.node list).children = _ from children] at member
        exact notHeld (List.mem_of_mem_filter member)
    · rw [← children]
      exact (edited.node list).children

end Thinned

/-! ### What is left -/

variable {piece x : NodeId}

structure IsLeft (p : Program) (gone : List NodeId) (target id : NodeId) : Prop where
  attached : p.tree.isWithin id p.root = true
  outside : ¬p.Inside gone id
  apart : p.tree.isWithin id target = false

namespace Regrouped

variable (regrouped : p.Regrouped r gone target piece q) (steady : p.Steady)
  (isList : (p.node list).statements? = some statements) (inside : ∀ id ∈ gone, id ∈ statements)
  (inList : p.tree.parent? target = some list)

include regrouped

theorem kept (isLeft : p.IsLeft gone target id) :
    q.tree.isWithin id q.root = true ∧ q.tree.parent? id = p.tree.parent? id :=
  regrouped.drops.kept isLeft.attached fun leaves =>
    leaves.elim isLeft.outside fun within => by rw [isLeft.apart] at within; cases within

theorem isLeft (allocated : p.tree.Allocated id) (attached : q.tree.isWithin id q.root = true) :
    p.IsLeft gone target id := by
  obtain ⟨before, stays⟩ := regrouped.drops.lost allocated attached
  exact ⟨before, fun outside => stays (.inl outside),
    Bool.eq_false_iff.mpr fun within => stays (.inr within)⟩

include steady isList inside inList

omit regrouped in
theorem notMem_children (other : id ≠ list) :
    (∀ leaving ∈ gone, leaving ∉ (p.node id).children) ∧ target ∉ (p.node id).children := by
  have linked := steady.linked
  constructor
  · intro leaving member isChild
    have heldToo :=
      linked.mem_children.mp (Node.mem_children_of_statements? isList (inside leaving member))
    exact other (Option.some.inj ((linked.mem_children.mp isChild).symm.trans heldToo))
  · exact fun isChild =>
      other (Option.some.inj ((linked.mem_children.mp isChild).symm.trans inList))

theorem node_eq (allocated : p.tree.Allocated id) (other : id ≠ list) : q.node id = p.node id := by
  obtain ⟨notGone, notTarget⟩ := notMem_children steady isList inside inList other
  exact regrouped.node allocated notGone notTarget

theorem agrees : p.tree.Agrees q.tree (p.IsLeft gone target) := by
  have linked := steady.linked
  have isAllocated {id : NodeId} (isLeft : p.IsLeft gone target id) : p.tree.Allocated id :=
    linked.allocated_of_isWithin isLeft.attached steady.isTop.allocated
  have tag {id : NodeId} (isLeft : p.IsLeft gone target id) :
      (q.tree.node id).tag = (p.tree.node id).tag :=
    regrouped.leads.tag (isAllocated isLeft)
  have part {id : NodeId} (part : Part) (isLeft : p.IsLeft gone target id) :
      (q.tree.node id).part part = (p.tree.node id).part part := by
    by_cases isSame : id = list
    · subst isSame
      have isBefore := Option.isSome_of_eq_some isList
      rw [Node.part_of_statements? ((Node.isSome_statements?_congr (tag isLeft)).trans isBefore),
        show p.tree.node id = p.node id from rfl, Node.part_of_statements? isBefore]
    · exact congrArg (Node.part part)
        (regrouped.node_eq steady isList inside inList (isAllocated isLeft) isSame)
  have above {id parent : NodeId} (isLeft : p.IsLeft gone target id)
      (isHeld : p.tree.parent? id = some parent) :
      p.IsLeft gone target parent := by
    refine ⟨?_, fun leaves => isLeft.outside (.of_parent linked isHeld leaves), ?_⟩
    · rw [← linked.isWithin_parent isHeld]
      · exact isLeft.attached
      · rintro rfl
        rw [steady.isTop.top] at isHeld
        cases isHeld
    · rw [Bool.eq_false_iff]
      intro within
      have apart := isLeft.apart
      rw [linked.isWithin_trans (linked.isWithin_of_parent isHeld) within] at apart
      cases apart
  refine ⟨⟨tag, fun isLeft => (regrouped.kept isLeft).2, above, fun which isLeft isHeld => ?_⟩,
    part, fun {id child which} isLeft member => ?_⟩
  · rw [Tree.holds, Tree.holds, part which (above isLeft isHeld)]
  · have isHeld := linked.parent?_of_mem_part member
    have other : id ≠ list := by
      rintro rfl
      rw [show p.tree.node id = p.node id from rfl,
        Node.part_of_statements? (Option.isSome_of_eq_some isList)] at member
      cases member
    obtain ⟨notGone, notTarget⟩ := notMem_children steady isList inside inList other
    have isChild := linked.mem_children.mpr isHeld
    refine ⟨linked.isWithin_trans (linked.isWithin_of_parent isHeld) isLeft.attached, ?_, ?_⟩
    · rintro ⟨leaving, isGone, within⟩
      by_cases same : child = leaving
      · exact notGone leaving isGone (same ▸ isChild)
      · rw [linked.isWithin_parent isHeld same] at within
        exact isLeft.outside ⟨leaving, isGone, within⟩
    · rw [linked.isWithin_parent isHeld]
      · exact isLeft.apart
      · rintro rfl
        exact notTarget isChild

omit steady inList in
theorem children_list (allocated : p.tree.Allocated list) :
    (q.node list).children =
      ((p.node list).children.filter (· ∉ gone)).flatMap (swap target (some piece)) :=
  (regrouped.thins allocated isList inside).2

theorem isWithin_piece (isNew : ¬p.tree.Allocated id)
    (attached : q.tree.isWithin id q.root = true) :
    q.tree.isWithin id piece = true := by
  have linked := steady.linked
  have linkedNow := regrouped.steady.linked
  induction id using linkedNow.induction with
  | step id induction =>
    by_cases isRoot : id = q.root
    · rw [isRoot, regrouped.leads.root] at isNew
      exact absurd steady.isTop.allocated isNew
    · obtain ⟨parent, isHeld, above⟩ := linkedNow.exists_parent_of_isWithin attached isRoot
      by_cases isOld : p.tree.Allocated parent
      · have notChild : id ∉ (p.node parent).children := fun member =>
          isNew (Tree.allocated_of_parent? (linked.mem_children.mp member))
        have member : id ∈ (q.node parent).children := linkedNow.mem_children.mpr isHeld
        by_cases isSame : parent = list
        · subst isSame
          rw [regrouped.children_list isList inside isOld, mem_flatMap_swap] at member
          rcases member with ⟨member, -⟩ | ⟨-, isPiece⟩
          · exact absurd (List.mem_of_mem_filter member) notChild
          · rw [Option.some.inj isPiece, Tree.isWithin_self]
        · rw [regrouped.node_eq steady isList inside inList isOld isSame] at member
          exact absurd member notChild
      · exact linkedNow.isWithin_trans (linkedNow.isWithin_of_parent isHeld)
          (induction parent isHeld isOld above)

omit regrouped isList inside in
theorem isLeft_list (attached : p.tree.isWithin target p.root = true)
    (outside : ¬p.Inside gone target) :
    p.IsLeft gone target list := by
  have linked := steady.linked
  refine ⟨linked.isWithin_root_of_above steady.isTop attached (linked.isWithin_of_parent inList),
    fun leaves => outside (.of_parent linked inList leaves), ?_⟩
  rw [Bool.eq_false_iff]
  intro within
  have same := linked.isWithin_antisymm within (linked.isWithin_of_parent inList)
  exact linked.parent?_ne_self _ (same ▸ inList)

/-- What came after the node and is left comes after what stands in its place. -/
theorem precedes (attached : p.tree.isWithin target p.root = true) (outside : ¬p.Inside gone target)
    (isNew : ¬p.tree.Allocated piece) (isLeft : p.IsLeft gone target x)
    (before : p.tree.precedes target x = true) :
    q.tree.precedes piece x = true := by
  have linked := steady.linked
  have linkedNow := regrouped.steady.linked
  have agrees := regrouped.agrees steady isList inside inList
  have listLeft := isLeft_list steady inList attached outside
  obtain ⟨apartToo, apart⟩ := Tree.not_isWithin_of_precedes before
  obtain ⟨fork, a, b, heldA, heldB, different, first, second⟩ :=
    linked.exists_siblings steady.isTop.allocated attached isLeft.attached apart apartToo
  have above {x id : NodeId} (isLeft : p.IsLeft gone target x)
      (within : p.tree.isWithin x id = true) :
      p.IsLeft gone target id := by
    rcases Tree.isWithin_iff.mp within with rfl | member
    · exact isLeft
    · exact Tree.Alike.shared_of_mem_ancestors linked agrees.toAlike isLeft member
  have leftB := above isLeft second
  have heldNow : q.tree.parent? b = some fork := (agrees.parent? leftB).trans heldB
  have secondNow : q.tree.isWithin x b = true :=
    (agrees.isWithin linked linkedNow isLeft b).trans second
  have pieceHeld : q.tree.parent? piece = some list := regrouped.held.trans inList
  rw [linked.precedes_iff_ahead heldA heldB different first second, linked.ahead_iff different]
    at before
  by_cases isTarget : target = a
  · subst isTarget
    obtain rfl : list = fork := Option.some.inj (inList.symm.trans heldA)
    have stays {id : NodeId} (notInside : ¬p.Inside gone id) : id ∉ gone := fun member =>
      notInside ⟨id, member, Tree.isWithin_self⟩
    have inFront := (before.filter (· ∉ gone)).flatMap (swap target (some piece))
    rw [List.filter_eq_self.mpr (by simp [stays outside, stays leftB.outside]),
      List.flatMap_cons, swap_self, List.flatMap_singleton, swap_of_ne different.symm] at inFront
    have apartNow : piece ≠ b := by
      rintro rfl
      exact isNew (Tree.allocated_of_parent? heldB)
    rw [linkedNow.precedes_iff_ahead pieceHeld heldNow apartNow Tree.isWithin_self secondNow,
      linkedNow.ahead_iff apartNow]
    rw [show (q.tree.node list).children = _ from regrouped.children_list isList inside
      (linked.allocated_parent inList)]
    exact inFront
  · rw [linked.isWithin_parent inList isTarget] at first
    have leftA := above listLeft first
    have other : fork ≠ list := by
      rintro rfl
      have same := linked.isWithin_antisymm first (linked.isWithin_of_parent heldA)
      exact linked.parent?_ne_self _ (same ▸ heldA)
    have pieceWithin : q.tree.isWithin piece a = true :=
      linkedNow.isWithin_trans (linkedNow.isWithin_of_parent pieceHeld)
        ((agrees.isWithin linked linkedNow listLeft a).trans first)
    rw [linkedNow.precedes_iff_ahead ((agrees.parent? leftA).trans heldA) heldNow different
      pieceWithin secondNow, linkedNow.ahead_iff different,
      show q.tree.node fork = _ from regrouped.node_eq steady isList inside inList
        (linked.allocated_parent heldA) other]
    exact before

end Regrouped

end Program

theorem SimplifyM.clears_of_forIn {ι : Type} {items : List ι} {place : ι → NodeId} {w v : Workspace}
    {result : PUnit} (ran : (forIn items PUnit.unit fun item _ => do
      SimplifyM.remove (place item)
      return ForInStep.yield PUnit.unit) w = .ok result v) :
    w.program.Clears (items.map place) v.program := by
  induction items generalizing w with
  | nil =>
    obtain ⟨-, rfl⟩ := EStateM.Result.ok.inj ran
    exact .done _
  | cons item rest induction =>
    rw [List.forIn_cons, bind_assoc] at ran
    obtain ⟨_, mid, removed, ran⟩ := exists_of_bind_ok ran
    refine .step ?_ (induction ran)
    rw [SimplifyM.remove, SimplifyM.edit] at removed
    cases done : w.program.remove (place item) with
    | error e => simp [done, bind, Except.bind] at removed
    | ok after =>
      simp only [done, bind, Except.bind, pure, Except.pure] at removed
      cases removed
      rfl

end Unravel
