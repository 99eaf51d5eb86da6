import Unravel.Proofs.Eval.Spelled
import Unravel.Proofs.Program.Meaning
import Unravel.Proofs.Scope.Incoming

/-!
The expression for a value in the place of another expression (`Program.Placing`). Its identifiers
belong to no binding if the names of globals in it mean nothing where it is put, and then it has
that value.
-/

namespace Unravel

namespace Node

variable {α : Type}

theorem isSilent_of_isConstantForm {n : Node α} (form : n.isConstantForm = true) :
    n.isSilent = true := by
  cases n <;> simp_all [isConstantForm, isSilent]

/-- Whether a node can be replaced without any name losing its declaration or its scope. -/
def isExchangeable (n : Node α) : Bool := n.isSilent && !n.isDeclarator

end Node

namespace Program

open Value

variable {p q after : Program} {target placed id : NodeId} {v : Value} {grown : Tree}
  {name : String}

/-- A program in which the expression for a value has taken the place of a node. It has been built
in a store that has grown. -/
structure Placing (p : Program) (target : NodeId) (v : Value) (placed : NodeId) (grown : Tree)
    (after : Program) : Prop where
  steady : p.Steady
  afterSteady : after.Steady
  root : after.root = p.root
  tree : after.tree = grown.replace target placed
  grows : p.tree.Grows grown
  wellBound : grown.WellBound
  edited : grown.Edited after.tree target (some placed)
  possible : grown.Exchangeable target (some placed)
  attached : p.tree.isWithin target p.root = true
  free : ¬p.tree.Binds target
  exchangeable : (p.node target).isExchangeable = true
  spelled : Spelled grown v placed
  allocated : grown.Allocated placed
  isNew : ¬p.tree.Allocated placed

theorem unwrap_eq {replacement : NodeId} (form : (p.node replacement).isConstantForm = true) :
    p.unwrap target replacement = (replacement, p) := by
  have notBlock : p.soleStatement? replacement = none := by
    rw [soleStatement?]
    cases shape : p.node replacement <;> simp_all [Node.isConstantForm]
  rw [unwrap, notBlock, ite_self]

theorem isConstantForm_of_spelled (spelled : Spelled grown v id) :
    (grown.node id).isConstantForm = true :=
  (Spelled.parts v spelled 1 id (by simp [Tree.descendantsWithin])).form

theorem spelled_of_edited {later : Tree} (linked : grown.Linked)
    (edited : grown.Edited later target (some placed))
    (possible : grown.Exchangeable target (some placed)) (spelled : Spelled grown v placed) :
    Spelled later v placed := by
  have kept : Kept grown later fun id => grown.isWithin id placed = true := ⟨?_, ?_⟩
  · exact Spelled.congr kept v Tree.isWithin_self spelled
  · intro id within child member
    have held := linked.mem_children.mp member
    exact linked.isWithin_trans (linked.isWithin_of_parent held) within
  · intro id within
    apply edited.kept
    intro member
    have held := linked.mem_children.mp member
    have below := linked.isWithin_trans (linked.isWithin_of_parent held) within
    have apart := possible.apart
    rw [Tree.isIncoming_some, below] at apart
    cases apart

theorem Steady.exists_replace_encode (steady : p.Steady) (attached : p.isAttached target = true)
    (notRoot : target ≠ p.root) (free : ¬p.tree.Binds target)
    (plain : (p.node target).isDeclarator = false) (v : Value) :
    ∃ after, Program.replace { p with tree := (v.encode p.tree).2 } target (v.encode p.tree).1 =
        .ok ((v.encode p.tree).1, after) ∧
      after.Steady ∧ after.isAttached (v.encode p.tree).1 = true ∧
        ¬after.tree.Binds (v.encode p.tree).1 ∧
        after.root = p.root ∧
        after.tree = (v.encode p.tree).2.replace target (v.encode p.tree).1 ∧
        (v.encode p.tree).2.Edited after.tree target (some (v.encode p.tree).1) ∧
        (v.encode p.tree).2.Exchangeable target (some (v.encode p.tree).1) := by
  have start := Tree.Building.start steady.linked steady.wellBound steady.nonempty
  have building := Tree.makes_encode v p.tree [] p.tree start
  have spelled := spelled_encode v start
  have loose := building.loose _ (List.mem_cons_self ..)
  generalize (v.encode p.tree).1 = placed at *
  generalize (v.encode p.tree).2 = grown at *
  have unchanged := building.grows.unchanged steady.linked steady.isTop
  obtain ⟨grownSteady, -⟩ := steady.grow building
  have form : (Program.node { p with tree := grown } placed).isConstantForm = true :=
    isConstantForm_of_spelled spelled
  rw [isAttached_eq steady.linked steady.isTop.top] at attached
  have attachedGrown : grown.isWithin target p.root = true := by
    rw [(unchanged.alike steady.linked steady.isTop.top).isWithin steady.linked
      grownSteady.linked attached, attached]
  have different : placed ≠ p.root := by
    rintro rfl
    exact loose.new steady.isTop.allocated
  have replaceable : Replaceable { p with tree := grown } target placed := by
    refine ⟨?_, notRoot, loose.detached, different⟩
    rw [isAttached_eq grownSteady.linked grownSteady.isTop.top]
    exact attachedGrown
  obtain ⟨after, done, result⟩ := Keeps.replace grownSteady.sound loose.allocated replaceable
  have isStaged : Program.staged { p with tree := grown } target placed =
      Program.exchanged { p with tree := grown } target (grown.replace target placed) := by
    rw [staged, unwrap_eq form]
  have tree : after.tree = grown.replace target placed := by
    rw [result.tree, isStaged, tree_exchanged]
  rw [unwrap_eq form] at done result
  have allocated := steady.linked.allocated_of_isWithin attached steady.isTop.allocated
  have freeGrown : ¬grown.Binds target := by rwa [building.grows.binds_iff steady.linked allocated]
  have plainGrown : (grown.node target).isDeclarator = false := by
    rwa [building.grows.node allocated]
  have afterSteady := (grownSteady.replace loose.allocated freeGrown plainGrown done).1
  have attachedAfter : after.isAttached placed = true := by
    rw [isAttached_eq afterSteady.linked afterSteady.isTop.top, result.root,
      result.edited.isWithin_root_iff grownSteady.linked result.possible
        grownSteady.isTop.top attachedGrown (by simpa using different)]
    exact .inr (by simp)
  have freeAfter : ¬after.tree.Binds placed := fun binds =>
    grownSteady.linked.not_binds_of_top loose.detached
      (result.edited.binds (fun _ => freeGrown) binds)
  exact ⟨after, done, afterSteady, attachedAfter, freeAfter, result.root, tree, result.edited,
    result.possible⟩

theorem Steady.exists_placing (steady : p.Steady) (attached : p.isAttached target = true)
    (free : ¬p.tree.Binds target) (exchangeable : (p.node target).isExchangeable = true)
    (v : Value) :
    ∃ after, Program.replace { p with tree := (v.encode p.tree).2 } target (v.encode p.tree).1 =
        .ok ((v.encode p.tree).1, after) ∧
      p.Placing target v (v.encode p.tree).1 (v.encode p.tree).2 after := by
  have notRoot : target ≠ p.root := by
    rintro rfl
    obtain ⟨body, shape⟩ := steady.sound.rooted.isProgram
    rw [shape] at exchangeable
    cases exchangeable
  have plain : (p.node target).isDeclarator = false := by
    rw [Node.isExchangeable, Bool.and_eq_true, Bool.not_eq_true'] at exchangeable
    exact exchangeable.2
  have start := Tree.Building.start steady.linked steady.wellBound steady.nonempty
  have building := Tree.makes_encode v p.tree [] p.tree start
  have loose := building.loose _ (List.mem_cons_self ..)
  obtain ⟨after, done, afterSteady, -, -, root, tree, edited, possible⟩ :=
    steady.exists_replace_encode attached notRoot free plain v
  rw [isAttached_eq steady.linked steady.isTop.top] at attached
  exact ⟨after, done, steady, afterSteady, root, tree, building.grows, building.wellBound,
    edited, possible, attached, free, exchangeable, spelled_encode v start,
    loose.allocated, loose.new⟩

namespace Placing

variable (placing : p.Placing target v placed grown after)

include placing

theorem unchanged : p.tree.Unchanged grown p.root :=
  placing.grows.unchanged placing.steady.linked placing.steady.isTop

theorem alike : p.tree.Alike grown fun id => p.tree.isWithin id p.root = true :=
  placing.unchanged.alike placing.steady.linked placing.steady.isTop.top

theorem isTop : grown.IsTop p.root := by
  have top := placing.grows.isTop placing.steady.isTop.allocated placing.steady.isTop.top
  exact ⟨top.1, top.2⟩

theorem allocatedTarget : p.tree.Allocated target :=
  placing.steady.linked.allocated_of_isWithin placing.attached placing.steady.isTop.allocated

theorem lexicon_grown : grown.lexicon p.root = p.lexicon :=
  placing.unchanged.lexicon_eq placing.steady.linked placing.grows.linked placing.steady.isTop
    placing.isTop.allocated

theorem freeGrown : ¬grown.Binds target := by
  rw [placing.grows.binds_iff placing.steady.linked placing.allocatedTarget]
  exact placing.free

theorem attachedGrown : grown.isWithin target p.root = true := by
  rw [placing.alike.isWithin placing.steady.linked placing.grows.linked placing.attached,
    placing.attached]

theorem notRoot : some placed ≠ some p.root := by
  intro same
  have allocated := placing.steady.isTop.allocated
  rw [← Option.some.inj same] at allocated
  exact placing.isNew allocated

theorem isConstantPart {id : NodeId} (within : grown.isWithin id placed = true) :
    IsConstantPart grown v.globals id := by
  apply Spelled.parts v placing.spelled grown.size
  rwa [← placing.grows.linked.mem_descendants_iff placing.allocated] at within

theorem silent : ∀ id, grown.isWithin id placed = true → (grown.node id).isSilent = true :=
  fun _ within => Node.isSilent_of_isConstantForm (placing.isConstantPart within).form

theorem sight_of_within (within : after.tree.isWithin id placed = true) :
    after.tree.sight id = p.tree.sight target := by
  have silentTarget : (p.tree.node target).isSilent = true := by
    have exchangeable := placing.exchangeable
    rw [Node.isExchangeable, Bool.and_eq_true] at exchangeable
    exact exchangeable.1
  have closed : grown.opens target = false := by
    rw [placing.alike.opens placing.attached]
    exact Tree.opens_of_isSilent silentTarget
  rw [placing.edited.sight_of_incoming placing.grows.linked placing.possible placing.freeGrown
    placing.silent closed within, placing.alike.sight placing.steady.linked placing.grows.linked
      placing.attached]

theorem declared_eq : after.lexicon.declared =
    p.lexicon.declared.filter fun d => !grown.isWithin d.identifier target := by
  have plain (id : NodeId) : target ∉ (grown.node id).part .declarators := by
    intro isHeld
    have isDeclarator := placing.wellBound.declarator isHeld
    have exchangeable := placing.exchangeable
    rw [placing.grows.node placing.allocatedTarget] at isDeclarator
    rw [Node.isExchangeable, node, isDeclarator, Bool.not_true, Bool.and_false] at exchangeable
    cases exchangeable
  rw [lexicon, placing.root, placing.edited.declared_eq placing.grows.linked placing.possible
    placing.freeGrown placing.silent placing.isTop placing.attachedGrown placing.notRoot plain,
    placing.lexicon_grown]

theorem binder?_eq_none {owner : NodeId} (unbound : p.lexicon.binder? owner name = none) :
    after.lexicon.binder? owner name = none := by
  rw [Lexicon.binder?_eq_none] at unbound ⊢
  rw [placing.declared_eq]
  exact fun d member => unbound d (List.mem_of_mem_filter member)

theorem look?_eq_none {places : List NodeId} (unbound : p.lexicon.look? places name = none) :
    after.lexicon.look? places name = none := by
  rw [Lexicon.look?, List.findSome?_eq_none_iff] at unbound ⊢
  exact fun owner member => placing.binder?_eq_none (unbound owner member)

theorem bindingOf?_of_within (unbound : ∀ name ∈ v.globals, p.isUnbound target name = true)
    (within : after.tree.isWithin id placed = true) : after.bindingOf? id = none := by
  have sound := placing.afterSteady.sound
  have incoming : grown.isIncoming (some placed) id = true := by
    rw [Tree.isIncoming_some,
      ← placing.edited.isWithin_new placing.grows.linked placing.possible rfl]
    exact within
  rw [sound.bindingOf?_eq_none_iff, Lexicon.meaning?]
  cases isUse : after.lexicon.uses id with
  | some use =>
    simp only [lexicon, Tree.lexicon, Option.ite_none_right_eq_some, Tree.useAt?,
      Option.bind_eq_some_iff, Option.some.injEq] at isUse
    obtain ⟨-, name, spelled, isUse, rfl⟩ := isUse
    rw [placing.edited.identifier?] at spelled
    have shape : grown.node id = .identifier name := by
      cases shape : grown.node id <;> simp_all [Node.identifier?]
    dsimp only
    rw [placing.sight_of_within within]
    apply placing.look?_eq_none
    rw [← placing.steady.sound.isUnbound_iff placing.attached]
    refine (placing.isConstantPart incoming).spelled name shape |>.elim (unbound name) ?_
    rintro ⟨parent, isLabel⟩
    -- A key is not looked up.
    have isLabelAfter : id ∈ (after.tree.node parent).part .label := by
      rw [(placing.edited.node parent).part, mem_flatMap_swap]
      refine .inl ⟨isLabel, ?_⟩
      rintro rfl
      rw [placing.possible.apart] at incoming
      cases incoming
    rw [placing.afterSteady.linked.isUse_role_of_label isLabelAfter] at isUse
    cases isUse
  | none =>
    have absent : after.lexicon.declarationOf? id = none := by
      rw [Lexicon.declarationOf?_eq_none]
      rintro d member rfl
      rw [placing.declared_eq] at member
      have attached :=
        (placing.steady.linked.scopes_owner placing.steady.isTop (List.mem_of_mem_filter member)).1
      have apart := placing.possible.isWithin_root placing.grows.linked placing.isTop
        placing.notRoot incoming
      rw [placing.alike.isWithin placing.steady.linked placing.grows.linked attached,
        attached] at apart
      cases apart
    simp only [absent, Option.bind_none]

theorem isWithin_placed : after.isAttached placed = true := by
  rw [isAttached_eq placing.afterSteady.linked placing.afterSteady.isTop.top, placing.root,
    placing.edited.isWithin_root_iff placing.grows.linked placing.possible placing.isTop.top
      placing.attachedGrown placing.notRoot]
  exact .inr (by simp)

theorem spelled_after : Spelled after.tree v placed :=
  spelled_of_edited placing.grows.linked placing.edited placing.possible placing.spelled

theorem global (unbound : ∀ name ∈ v.globals, p.isUnbound target name = true) :
    after.Global fun id => after.tree.isWithin id placed = true where
  closed within child member := by
    have linked := placing.afterSteady.linked
    exact linked.isWithin_trans (linked.isWithin_of_parent (linked.mem_children.mp member)) within
  unbound within := placing.bindingOf?_of_within unbound within

theorem evaluateWithin_eq (unbound : ∀ name ∈ v.globals, p.isUnbound target name = true)
    (keyed : v.Keyed) {limit : Nat} (enough : v.nesting + 2 ≤ limit) :
    after.evaluateWithin limit placed = some v :=
  evaluateWithin_of_spelled (placing.global unbound) v keyed Tree.isWithin_self
    placing.spelled_after enough

end Placing

end Program

end Unravel
