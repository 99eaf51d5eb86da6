import Unravel.Proofs.Program.Change
import Unravel.Proofs.Syntax.Operand
import Unravel.Proofs.Tree.Order

/-!
What is left of a program after replacements and removals (`Program.Remnant`). The nodes that are
left hang where they hung and hold the names that they declare, and what has left lay in a node of a
certain kind.

What is left of a program in the order in which it stood (`Program.Aligned`). Replacements and
removals put nothing of before in front of anything else, so the nodes that are left come in the
same order as they did.
-/

namespace Unravel

namespace Tree

variable {t : Tree}

theorem Linked.of_isWithin {A : NodeId → Prop} (linked : t.Linked)
    (above : ∀ {id parent}, A id → t.parent? id = some parent → A parent) {inner outer : NodeId}
    (holds : A inner) (within : t.isWithin inner outer = true) : A outer := by
  induction inner using linked.induction with
  | step inner induction =>
    rcases isWithin_iff.mp within with rfl | further
    · exact holds
    · obtain ⟨parent, held, place⟩ := linked.mem_ancestors_iff.mp further
      exact induction parent held (above holds held) (isWithin_iff.mpr (place.imp_left Eq.symm))

theorem Edited.above {A : NodeId → Prop} {after : Tree} {old : NodeId} {new : Option NodeId}
    (edited : t.Edited after old new)
    (above : ∀ {id parent}, A id → t.parent? id = some parent → A parent)
    (other : ∀ n, new = some n → ¬A n) {id parent : NodeId} (holds : A id)
    (held : after.parent? id = some parent) :
    A parent := by
  rw [edited.parent?] at held
  split at held
  · cases held
  · split at held
    · rename_i isNew
      exact absurd holds (other id isNew.symm)
    · exact above holds held

end Tree

namespace Program

variable {o p after : Program} {may : NodeId → Prop} {id target replacement placed gone : NodeId}
  {held : List NodeId} {grown : Tree}

theorem Rooted.isAttached_elsewhere (rooted : p.Rooted) (unchanged : p.tree.Unchanged grown p.root)
    (linked : grown.Linked) (id : NodeId) :
    isAttached { p with tree := grown } id = p.isAttached id := by
  rw [isAttached_eq rooted.linked rooted.isTop.top,
    isAttached_eq linked ((unchanged.parent? Tree.isWithin_self).trans rooted.isTop.top)]
  exact unchanged.isWithin_root rooted.linked linked rooted.isTop.top

theorem Rooted.isAttached_grow (rooted : p.Rooted) (grows : p.tree.Grows grown) (id : NodeId) :
    isAttached { p with tree := grown } id = p.isAttached id :=
  rooted.isAttached_elsewhere (grows.unchanged rooted.linked rooted.isTop) grows.linked id

theorem Replaced.of_replace (sound : p.Sound) (allocated : p.tree.Allocated replacement)
    (done : p.replace target replacement = .ok (placed, after)) :
    p.Replaced target replacement after := by
  obtain ⟨possible, -⟩ := replace_eq_ok_iff.mp done
  obtain ⟨rfl, result⟩ := Keeps.of_replace sound allocated done
  exact ⟨sound, possible, allocated, result⟩

theorem Taken.of_remove (sound : p.Sound) (done : p.remove target = .ok after) :
    p.Taken target after := by
  obtain ⟨below, removed⟩ := Keeps.remove sound done
  exact ⟨sound, below, removed⟩

theorem Steady.leaving_cases (steady : p.Steady) (target : NodeId) : p.leaving target = target ∨
    (p.node (p.leaving target)).isVariableDeclaration = true ∧
    (p.node (p.leaving target)).children = [target] := by
  cases held : p.tree.parent? target with
  | none => exact .inl (by rw [leaving, Tree.ancestors_of_root held, removalTarget])
  | some parent =>
    by_cases notOnly : ∀ kind only, p.node parent ≠ .variableDeclaration kind [only]
    · exact .inl (leaving_eq_self steady.linked held notOnly)
    · simp only [not_forall, ne_eq, not_not] at notOnly
      obtain ⟨kind, only, shape⟩ := notOnly
      have member := steady.linked.mem_children.mpr held
      rw [show p.tree.node parent = _ from shape] at member
      obtain rfl := List.mem_singleton.mp member
      -- A declaration is no declarator of another one.
      have same : p.leaving target = parent := by
        rw [leaving, steady.linked.ancestors_of_parent held, removalTarget, shape]
        change p.leaving parent = parent
        cases outerHeld : p.tree.parent? parent with
        | none => rw [leaving, Tree.ancestors_of_root outerHeld, removalTarget]
        | some outer =>
          refine leaving_eq_self steady.linked outerHeld fun kind only outerShape => ?_
          have isHeld := steady.linked.mem_children.mpr outerHeld
          rw [show p.tree.node outer = _ from outerShape] at isHeld
          have isPart : parent ∈ (p.tree.node outer).part .declarators := by
            rw [show p.tree.node outer = _ from outerShape]
            exact isHeld
          have isDeclarator := steady.wellBound.declarator isPart
          rw [show p.tree.node parent = _ from shape] at isDeclarator
          cases isDeclarator
      rw [same, shape]
      exact .inr ⟨rfl, rfl⟩

/-- What is left of a program when nodes of a kind have been taken out of it, each with all that it
held. A declaration of variables goes away with its only declarator. -/
structure Remnant (o : Program) (may : NodeId → Prop) (p : Program) : Prop where
  origin : o.Steady
  steady : p.Steady
  leads : o.Leads p
  above : ∀ {id parent}, o.tree.Allocated id → p.tree.parent? id = some parent →
    o.tree.Allocated parent
  parent : ∀ {id}, o.tree.Allocated id → p.isAttached id = true →
    o.isAttached id = true ∧ p.tree.parent? id = o.tree.parent? id
  names : ∀ {id name part}, part ∈ [Part.name, Part.target] → o.isAttached id = true →
    p.isAttached id = true →
    name ∈ (o.node id).part part → name ∈ (p.node id).part part
  gone : ∀ {id}, o.isAttached id = true → p.isAttached id = false →
    (o.node id).isVariableDeclaration = true ∨
    ∃ outer, may outer ∧ o.tree.isWithin id outer = true ∧ p.isAttached outer = false

namespace Remnant

theorem start (steady : o.Steady) : Remnant o may o where
  origin := steady
  steady := steady
  leads := .refl o
  above _ held := by
    have linked := steady.linked
    exact linked.allocated_parent held
  parent _ attached := ⟨attached, rfl⟩
  names _ _ _ held := held
  gone attached detached := by simp [attached] at detached

variable (remnant : Remnant o may p)

include remnant

theorem weaken {might : NodeId → Prop} (weaker : ∀ id, may id → might id) : Remnant o might p :=
  ⟨remnant.origin, remnant.steady, remnant.leads, remnant.above, remnant.parent, remnant.names,
    fun before isGone => (remnant.gone before isGone).imp_right fun ⟨outer, isMay, rest⟩ =>
      ⟨outer, weaker outer isMay, rest⟩⟩

theorem rooted : p.Rooted := remnant.steady.sound.rooted

theorem allocated (allocated : o.tree.Allocated id) :
    p.tree.Allocated id := remnant.leads.allocated allocated

theorem tag (allocated : o.tree.Allocated id) : (p.node id).tag = (o.node id).tag :=
  remnant.leads.tag allocated

theorem allocated_of_isWithin {outer : NodeId} (allocated : o.tree.Allocated id)
    (within : p.tree.isWithin id outer = true) : o.tree.Allocated outer :=
  remnant.steady.linked.of_isWithin remnant.above allocated within

/-- What is left hangs below the same nodes as before. -/
theorem isWithin_eq {outer : NodeId} (allocated : o.tree.Allocated id)
    (attached : p.isAttached id = true) :
    p.tree.isWithin id outer = o.tree.isWithin id outer := by
  have linked := remnant.origin.linked
  induction id using linked.induction with
  | step id induction =>
    have same := (remnant.parent allocated attached).2
    cases held : o.tree.parent? id with
    | none =>
      rw [held] at same
      rw [Bool.eq_iff_iff, Tree.isWithin_of_root same, Tree.isWithin_of_root held]
    | some parent =>
      rw [held] at same
      by_cases isOuter : id = outer
      · rw [isOuter, Tree.isWithin_self, Tree.isWithin_self]
      · rw [remnant.steady.linked.isWithin_parent same isOuter, linked.isWithin_parent held isOuter]
        exact induction parent held (linked.allocated_parent held)
          (remnant.rooted.isAttached_parent attached same)

theorem lose (gone : NodeId) (steady : after.Steady) (leads : p.Leads after)
    (above : ∀ {id parent}, o.tree.Allocated id → after.tree.parent? id = some parent →
      o.tree.Allocated parent)
    (kept : ∀ {id}, p.tree.isWithin id p.root = true → p.tree.isWithin id gone = false →
      after.tree.isWithin id after.root = true ∧ after.tree.parent? id = p.tree.parent? id)
    (lost : ∀ {id}, o.tree.Allocated id → after.tree.isWithin id after.root = true →
      p.tree.isWithin id p.root = true ∧ p.tree.isWithin id gone = false)
    (swapped : ∀ {id}, p.isAttached id = true → ∃ new, (p.node id).Swapped gone new (after.node id))
    (notName : ∀ {holder part}, part ∈ [Part.name, Part.target] → gone ∉ (p.node holder).part part)
    (reason : ∀ {id}, o.tree.Allocated id → p.tree.isWithin id gone = true →
      (p.node id).isVariableDeclaration = true ∨
        ∃ outer, may outer ∧ p.tree.isWithin id outer = true ∧ p.tree.isWithin outer gone = true) :
    Remnant o may after ∧ ∀ {id}, o.tree.Allocated id → after.isAttached id = true →
      p.isAttached id = true := by
  have rooted := remnant.rooted
  have afterRooted := steady.sound.rooted
  simp only [← isAttached_eq rooted.linked rooted.isTop.top,
    ← isAttached_eq afterRooted.linked afterRooted.isTop.top] at kept lost
  refine ⟨?_, fun allocated attached => (lost allocated attached).1⟩
  refine ⟨remnant.origin, steady, remnant.leads.trans leads, above,
    fun {id} allocated attached => ?_, fun {id name part} isPart before attached isHeld => ?_,
    fun {id} before isGone => ?_⟩
  · obtain ⟨mid, outside⟩ := lost allocated attached
    obtain ⟨before, same⟩ := remnant.parent allocated mid
    exact ⟨before, (kept mid outside).2.trans same⟩
  · have allocated := remnant.origin.sound.rooted.allocated_of_isAttached before
    have mid := (lost allocated attached).1
    obtain ⟨new, swapped⟩ := swapped mid
    have wasHeld := remnant.names isPart before mid isHeld
    rw [swapped.part, mem_flatMap_swap]
    refine .inl ⟨wasHeld, ?_⟩
    rintro rfl
    exact notName isPart wasHeld
  · have allocated := remnant.origin.sound.rooted.allocated_of_isAttached before
    cases mid : p.isAttached id with
    | false =>
      refine (remnant.gone before mid).imp_right fun ⟨outer, isMay, within, wasGone⟩ =>
        ⟨outer, isMay, within, ?_⟩
      rw [Bool.eq_false_iff]
      intro attached
      have isAllocated := remnant.origin.linked.of_isWithin
        (fun _ held => remnant.origin.linked.allocated_parent held) allocated within
      rw [(lost isAllocated attached).1] at wasGone
      cases wasGone
    | true =>
      have below : p.tree.isWithin id gone = true := by
        by_contra outside
        rw [(kept mid (Bool.eq_false_iff.mpr outside)).1] at isGone
        cases isGone
      refine (reason allocated below).imp (fun isDeclaration => ?_)
        fun ⟨outer, isMay, within, inside⟩ =>
          ⟨outer, isMay, (remnant.isWithin_eq allocated mid).symm.trans within, ?_⟩
      · rwa [← Node.isVariableDeclaration_tag, ← remnant.tag allocated,
          Node.isVariableDeclaration_tag]
      · rw [Bool.eq_false_iff]
        intro attached
        have outside := (lost (remnant.allocated_of_isWithin allocated within) attached).2
        rw [inside] at outside
        cases outside

/-- Something new comes into the place of a node, and nothing of before comes back. -/
theorem replace (free : ¬p.tree.Binds target) (plain : (p.node target).isDeclarator = false)
    (allocated : p.tree.Allocated replacement) (isNew : ¬o.tree.Allocated replacement)
    (isMay : o.tree.Allocated target → may target)
    (done : p.replace target replacement = .ok (placed, after)) :
    Remnant o may after ∧ ∀ {id}, o.tree.Allocated id → after.isAttached id = true →
      p.isAttached id = true := by
  obtain ⟨steady, leads⟩ := remnant.steady.replace allocated free plain done
  have replaced := Replaced.of_replace remnant.steady.sound allocated done
  have linked := remnant.steady.linked
  have apart {id : NodeId} (isOld : o.tree.Allocated id) :
      p.tree.isWithin id replacement = false := by
    rw [Bool.eq_false_iff]
    exact fun within => isNew (remnant.allocated_of_isWithin isOld within)
  have part := (isWithin_of_unwrap linked target replacement).1
  have unwrapped := replaced.placed.unwrapped
  have edited := replaced.placed.edited
  generalize (p.unwrap target replacement).1 = piece at part unwrapped edited
  generalize (p.unwrap target replacement).2 = q at unwrapped edited
  have above {id parent : NodeId} (isOld : o.tree.Allocated id)
      (held : q.tree.parent? id = some parent) :
      o.tree.Allocated parent := by
    rcases unwrapped.tree with same | ⟨inner, taken⟩
    · rw [same] at held
      exact remnant.above isOld held
    · exact taken.above remnant.above (by simp) isOld held
  refine remnant.lose _ steady leads (edited.above above ?_) replaced.keeps_and_loses.1
    (fun isOld => replaced.keeps_and_loses.2 (apart isOld)) (fun {id} attached => ?_)
    (fun {holder part} isPart isHeld => free (.place ?_ isHeld))
    fun isOld within => .inr ⟨target, ?_, within, ?_⟩
  · rintro n ⟨⟩ isOld
    rw [apart isOld] at part
    cases part
  · rw [isAttached_eq linked remnant.steady.isTop.top] at attached
    obtain ⟨placed, swapped, -⟩ := replaced.exists_swapped attached
    exact ⟨some placed, swapped⟩
  · simp only [List.mem_cons, List.not_mem_nil, or_false] at isPart ⊢
    tauto
  · exact isMay (remnant.allocated_of_isWithin isOld within)
  · exact Tree.isWithin_self

theorem remove (notPattern : (p.node target).isPattern = false)
    (isMay : o.tree.Allocated target → may target) (done : p.remove target = .ok after) :
    Remnant o may after ∧ ∀ {id}, o.tree.Allocated id → after.isAttached id = true →
      p.isAttached id = true := by
  obtain ⟨steady, leads, -⟩ := remnant.steady.remove done
  have taken := Taken.of_remove remnant.steady.sound done
  have linked := remnant.steady.linked
  have leaves := remnant.steady.leaving_cases target
  refine remnant.lose (p.leaving target) steady leads ?_ taken.loses.kept
    (fun isOld => taken.loses.lost (remnant.allocated isOld)) (fun {id} attached => ?_)
    (fun {holder part} isPart isHeld => ?_) fun {id} isOld within => ?_
  · rcases taken.removed.tree with ⟨edited, -⟩ | ⟨edited, -⟩
    · exact edited.above remnant.above (by simp)
    · obtain ⟨grows, loose, -⟩ := grows_withEmpty linked
      refine edited.above (fun {id parent} isOld held => ?_) ?_
      · rw [grows.parent? (remnant.allocated isOld)] at held
        exact remnant.above isOld held
      · rintro n ⟨⟩ isOld
        exact loose.new (remnant.allocated isOld)
  · obtain ⟨new, swapped, -⟩ :=
      taken.exists_swapped (remnant.rooted.allocated_of_isAttached attached)
    exact ⟨new, swapped⟩
  · have binds : p.tree.Binds (p.leaving target) := by
      refine .place ?_ isHeld
      simp only [List.mem_cons, List.not_mem_nil, or_false] at isPart ⊢
      tauto
    have isPattern := remnant.steady.wellBound.pattern binds
    rcases leaves with same | ⟨isDeclaration, -⟩
    · rw [same, show (p.tree.node target).isPattern = false from notPattern] at isPattern
      cases isPattern
    · cases shape : p.node (p.leaving target) <;>
        simp_all [Node.isVariableDeclaration, Node.isPattern, Program.node]
  · rcases leaves with same | ⟨isDeclaration, only⟩
    · rw [same] at within
      exact .inr ⟨target, isMay (remnant.allocated_of_isWithin isOld within), within,
        by rw [same, Tree.isWithin_self]⟩
    · by_cases isLeaving : id = p.leaving target
      · exact .inl (isLeaving ▸ isDeclaration)
      · obtain ⟨child, member, below⟩ := linked.exists_child within isLeaving
        rw [show (p.tree.node (p.leaving target)).children = [target] from only, List.mem_singleton]
          at member
        subst member
        exact .inr ⟨child, isMay (remnant.allocated_of_isWithin isOld below), below,
          isWithin_leaving linked child⟩

/-- Changes of what hangs nowhere. -/
theorem elsewhere (steady : Program.Steady { p with tree := grown })
    (leads : p.Leads { p with tree := grown }) (unchanged : p.tree.Unchanged grown p.root)
    (same : ∀ {id}, o.tree.Allocated id → grown.parent? id = p.tree.parent? id) :
    Remnant o may { p with tree := grown } := by
  have rooted := remnant.rooted
  have isAttached := rooted.isAttached_elsewhere unchanged steady.linked
  refine ⟨remnant.origin, steady, remnant.leads.trans leads, fun isOld held => ?_,
    fun isOld attached => ?_, fun isPart before attached isHeld => ?_, fun before isGone => ?_⟩
  · rw [same isOld] at held
    exact remnant.above isOld held
  · rw [isAttached] at attached
    rw [same isOld]
    exact remnant.parent isOld attached
  · rw [isAttached, isAttached_eq rooted.linked rooted.isTop.top] at attached
    rw [Program.node, unchanged.node attached]
    rw [← isAttached_eq rooted.linked rooted.isTop.top] at attached
    exact remnant.names isPart before attached isHeld
  · simp only [isAttached] at isGone ⊢
    exact remnant.gone before isGone

theorem extend (steady : Program.Steady { p with tree := grown }) (grows : p.tree.Grows grown) :
    Remnant o may { p with tree := grown } :=
  remnant.elsewhere steady (.grow remnant.rooted.linked grows)
    (grows.unchanged remnant.rooted.linked remnant.rooted.isTop)
    fun isOld => grows.parent? (remnant.allocated isOld)

theorem grow (building : p.tree.Building held grown) : Remnant o may { p with tree := grown } :=
  remnant.extend (remnant.steady.grow building).1 building.grows

end Remnant

end Program

/-! ### The order of what is left -/

theorem pair_sublist_of_swap {α : Type} [DecidableEq α] {old a b : α} {new : Option α} {l : List α}
    (first : new ≠ some a) (second : new ≠ some b)
    (inFront : [a, b].Sublist (l.flatMap (swap old new))) :
    [a, b].Sublist l := by
  induction l with
  | nil => exact inFront
  | cons head rest induction =>
    have later (inFront : [a, b].Sublist (rest.flatMap (swap old new))) :
        [a, b].Sublist (head :: rest) :=
      (induction inFront).cons head
    rw [List.flatMap_cons] at inFront
    by_cases isOld : head = old
    · rw [isOld, swap_self] at inFront
      cases new with
      | none => exact later inFront
      | some n =>
        cases inFront with
        | cons _ further => exact later further
        | cons_cons => exact absurd rfl first
    · rw [swap_of_ne isOld] at inFront
      cases inFront with
      | cons _ further => exact later further
      | cons_cons _ further =>
        have member : b ∈ rest.flatMap (swap old new) := List.singleton_sublist.mp further
        rw [mem_flatMap_swap] at member
        obtain ⟨member, -⟩ := member.resolve_right fun ⟨_, isNew⟩ => second isNew.symm
        exact (List.singleton_sublist.mpr member).cons_cons _

namespace Program

variable {o p after : Program} {may : NodeId → Prop} {id a b target replacement placed gone :
  NodeId} {grown : Tree}

theorem Rooted.isAttached_below (rooted : p.Rooted) {outer : NodeId}
    (attached : p.isAttached outer = true) (within : p.tree.isWithin id outer = true) :
    p.isAttached id = true := by
  rw [isAttached_eq rooted.linked rooted.isTop.top] at attached ⊢
  exact rooted.linked.isWithin_trans within attached

/--
What is left of a program, where the children of each node are in the order in which they were. -/
structure Aligned (o : Program) (may : NodeId → Prop) (p : Program) : Prop extends
    o.Remnant may p where
  order : ∀ {id a b}, o.isAttached id = true → p.isAttached id = true → o.tree.Allocated a →
    o.tree.Allocated b →
    [a, b].Sublist (p.node id).children → [a, b].Sublist (o.node id).children

namespace Aligned

theorem start (steady : o.Steady) :
    Aligned o may o := ⟨.start steady, fun _ _ _ _ inFront => inFront⟩

variable (aligned : o.Aligned may p)

include aligned

/-- Changes of what hangs nowhere. -/
theorem elsewhere (steady : Program.Steady { p with tree := grown })
    (leads : p.Leads { p with tree := grown }) (unchanged : p.tree.Unchanged grown p.root)
    (same : ∀ {id}, o.tree.Allocated id → grown.parent? id = p.tree.parent? id) :
    Aligned o may { p with tree := grown } := by
  have rooted := aligned.rooted
  refine ⟨aligned.toRemnant.elsewhere steady leads unchanged same,
    fun before attached first second inFront => ?_⟩
  rw [rooted.isAttached_elsewhere unchanged steady.linked] at attached
  have isNode := attached
  rw [isAttached_eq rooted.linked rooted.isTop.top] at isNode
  rw [Program.node, unchanged.node isNode] at inFront
  exact aligned.order before attached first second inFront

theorem extend (steady : Program.Steady { p with tree := grown }) (grows : p.tree.Grows grown) :
    Aligned o may { p with tree := grown } :=
  aligned.elsewhere steady (.grow aligned.rooted.linked grows)
    (grows.unchanged aligned.rooted.linked aligned.rooted.isTop)
    fun isOld => grows.parent? (aligned.toRemnant.allocated isOld)

theorem adopt {node : Node NodeId}
    (free : ∀ child ∈ node.children, p.tree.IsTop child ∧ child ≠ p.root)
    (isNew : ∀ child ∈ node.children, ¬o.tree.Allocated child) (distinct : node.children.Nodup)
    (plain : ∀ part ∈ [.target, .name, .params, .declarators], node.part part = []) :
    Aligned o may { p with tree := (Tree.alloc node p.tree).2 } := by
  obtain ⟨steady, leads⟩ := aligned.steady.adopt free distinct plain
  refine aligned.elsewhere steady leads
    (aligned.steady.linked.unchanged_alloc aligned.steady.isTop free) fun {id} isOld => ?_
  rw [Tree.parent?_alloc fun child member => (free child member).1.allocated, if_neg]
  exact fun member => isNew id member isOld

/-- A child is exchanged for something new. -/
theorem exchange (gone : NodeId) (remnant : o.Remnant may after)
    (back : ∀ {id}, o.tree.Allocated id → after.isAttached id = true → p.isAttached id = true)
    (swapped : ∀ {id}, p.isAttached id = true →
      ∃ new, (p.node id).Swapped gone new (after.node id) ∧
        ∀ n, new = some n → ¬o.tree.Allocated n) : Aligned o may after := by
  refine ⟨remnant, fun {id a b} before attached first second inFront => ?_⟩
  have mid := back (aligned.origin.sound.rooted.allocated_of_isAttached before) attached
  obtain ⟨new, swapped, isNew⟩ := swapped mid
  rw [swapped.children] at inFront
  exact aligned.order before mid first second
    (pair_sublist_of_swap (fun same => isNew a same first) (fun same => isNew b same second)
      inFront)

theorem replace (free : ¬p.tree.Binds target) (plain : (p.node target).isDeclarator = false)
    (allocated : p.tree.Allocated replacement) (isNew : ¬o.tree.Allocated replacement)
    (isMay : o.tree.Allocated target → may target)
    (done : p.replace target replacement = .ok (placed, after)) :
    Aligned o may after := by
  obtain ⟨remnant, back⟩ := aligned.toRemnant.replace free plain allocated isNew isMay done
  refine aligned.exchange target remnant back fun {id} attached => ?_
  rw [isAttached_eq aligned.steady.linked aligned.steady.isTop.top] at attached
  obtain ⟨placed, swapped, within⟩ :=
    (Replaced.of_replace aligned.steady.sound allocated done).exists_swapped attached
  refine ⟨some placed, swapped, ?_⟩
  rintro _ ⟨⟩ isOld
  exact isNew (aligned.toRemnant.allocated_of_isWithin isOld within)

theorem remove (notPattern : (p.node target).isPattern = false)
    (isMay : o.tree.Allocated target → may target) (done : p.remove target = .ok after) :
    Aligned o may after := by
  obtain ⟨remnant, back⟩ := aligned.toRemnant.remove notPattern isMay done
  refine aligned.exchange (p.leaving target) remnant back fun {id} attached => ?_
  obtain ⟨new, swapped, isNew⟩ := (Taken.of_remove aligned.steady.sound done).exists_swapped
    (aligned.rooted.allocated_of_isAttached attached)
  exact ⟨new, swapped, fun n isSome isOld => isNew n isSome (aligned.toRemnant.allocated isOld)⟩

/-! ### Source order -/

theorem path_eq (before : o.isAttached id = true) (attached : p.isAttached id = true) :
    p.tree.path id = o.tree.path id := by
  have linked := aligned.origin.linked
  have rooted := aligned.origin.sound.rooted
  induction id using linked.induction with
  | step id induction =>
    have same := (aligned.parent (rooted.allocated_of_isAttached before) attached).2
    cases held : o.tree.parent? id with
    | none =>
      rw [held] at same
      rw [Tree.path, Tree.path, Tree.ancestors_of_root held, Tree.ancestors_of_root same]
    | some parent =>
      rw [held] at same
      rw [linked.path_of_parent held, aligned.steady.linked.path_of_parent same,
        induction parent held (rooted.isAttached_parent before held)
          (aligned.rooted.isAttached_parent attached same)]

theorem isAttached_of_isWithin {outer : NodeId} (before : o.isAttached id = true)
    (attached : p.isAttached id = true) (within : o.tree.isWithin id outer = true) :
    o.isAttached outer = true ∧ p.isAttached outer = true := by
  have rooted := aligned.origin.sound.rooted
  have below := (aligned.isWithin_eq (rooted.allocated_of_isAttached before) attached).trans within
  exact ⟨rooted.isAttached_of_isWithin before within,
    aligned.rooted.isAttached_of_isWithin attached below⟩

theorem precedes_eq (first : o.isAttached a = true) (firstNow : p.isAttached a = true)
    (second : o.isAttached b = true) (secondNow : p.isAttached b = true) :
    p.tree.precedes a b = o.tree.precedes a b := by
  have linked := aligned.origin.linked
  have linkedNow := aligned.steady.linked
  have rooted := aligned.origin.sound.rooted
  refine Tree.precedes_eq_of_kept (fun id => o.isAttached id = true ∧ p.isAttached id = true)
    linked linkedNow (aligned.path_eq first firstNow) (aligned.path_eq second secondNow)
    (fun id onPath => ?_) (fun {id x y} isFork isFirst isSecond => aligned.order isFork.1 isFork.2
      (rooted.allocated_of_isAttached isFirst.1) (rooted.allocated_of_isAttached isSecond.1)) ?_
  · rw [Tree.mem_path, Tree.mem_path] at onPath
    rcases onPath with within | within
    · exact aligned.isAttached_of_isWithin first firstNow within
    · exact aligned.isAttached_of_isWithin second secondNow within
  · intro id child isFork isChild member
    rw [linkedNow.mem_children,
      (aligned.parent (rooted.allocated_of_isAttached isChild.1) isChild.2).2]
    exact linked.mem_children.mp member

end Aligned

end Program

end Unravel
