import Unravel.Proofs.Simplify.Along
import Unravel.Proofs.Simplify.Cleared
import Unravel.Proofs.Simplify.ReadOnly

/-!
Empty objects that assignments behind them fill.
-/

namespace Unravel

open SimplifyM Program

variable {o p q between : Program} {may : NodeId → Prop} {c : Context}
  {declarator literal id : NodeId} {properties : List NodeId} {grown : Tree}

namespace ObjectLiteral

variable {object : EmptyObject} {entries : List Entry} {entry : Entry}

theorem exists_of_step {w v : Workspace} {changed : Bool}
    (stepped : step declarator w = .ok changed v) :
    (changed = false ∧ v = w) ∨ ∃ object entries between placed, changed = true ∧
      plan? w.program declarator = some (object, entries) ∧
      Clears { w.program with tree := (entries.mapM property w.program.tree).2 }
        (entries.map Entry.statement) between ∧
      Program.replace
        { between with
          tree := (Tree.alloc (.object (entries.mapM property w.program.tree).1) between.tree).2 }
        object.init (Tree.alloc (.object (entries.mapM property w.program.tree).1) between.tree).1 =
          .ok (placed, v.program) := by
  rw [step, program_bind] at stepped
  cases planned : plan? w.program declarator with
  | none =>
    simp only [planned] at stepped
    obtain ⟨rfl, rfl⟩ := EStateM.Result.ok.inj stepped
    exact .inl ⟨rfl, rfl⟩
  | some plan =>
    obtain ⟨object, entries⟩ := plan
    simp only [planned, build_bind] at stepped
    obtain ⟨_, between, cleared, stepped⟩ := exists_of_bind_ok stepped
    rw [build_bind] at stepped
    obtain ⟨_, after, replaced, stepped⟩ := exists_of_bind_ok stepped
    obtain ⟨placed, replaced⟩ := exists_of_discard replaced
    rw [record_bind] at stepped
    obtain ⟨rfl, rfl⟩ := EStateM.Result.ok.inj stepped
    exact .inr ⟨object, entries, between.program, placed, rfl, rfl, clears_of_forIn cleared,
      of_replace_eq_ok replaced⟩

theorem exists_list_of_plan? (planned : plan? p declarator = some (object, entries)) :
    ∃ list statements, (p.node list).statements? = some statements ∧
      ∀ entry ∈ entries, entry.statement ∈ statements := by
  obtain ⟨-, -, -, -, nonempty⟩ := of_plan? planned
  obtain ⟨first, isFirst⟩ := List.exists_mem_of_ne_nil entries nonempty
  obtain ⟨declaration, list, statements, _, _, _, _, _, held, above, isList, -⟩ :=
    of_mem_plan planned isFirst
  refine ⟨list, statements, isList, fun entry member => ?_⟩
  obtain ⟨other, outer, others, _, _, _, _, _, heldToo, aboveToo, isListToo, inside, -⟩ :=
    of_mem_plan planned member
  rw [held, Option.some.injEq] at heldToo
  subst heldToo
  rw [above, Option.some.injEq] at aboveToo
  subst aboveToo
  rw [isList, Option.some.injEq] at isListToo
  exact isListToo ▸ inside

theorem building_properties (steady : p.Steady) (entries : List Entry) :
    p.tree.Building (entries.mapM property p.tree).1 (entries.mapM property p.tree).2 := by
  have makes : Tree.Makes [] (fun made => made) (entries.mapM property) :=
    .mapM entries fun entry _ => makes_property entry
  have building := makes p.tree [] p.tree (.start steady.linked steady.wellBound steady.nonempty)
  rwa [List.append_nil] at building

/-- The empty object of a declarator has been filled with properties, and the statements that they
come from have left. -/
structure Filled (p : Program) (declarator : NodeId) (object : EmptyObject) (entries : List Entry)
    (properties : List NodeId) (grown : Tree) (literal : NodeId) (q : Program) : Prop where
  steady : q.Steady
  leads : p.Leads q
  size : grown.size ≤ q.tree.size
  drops : Drops p p
    (fun id => p.Inside (entries.map Entry.statement) id ∨ p.tree.isWithin id object.init = true) q
  held : q.tree.parent? literal = some declarator
  shape : q.node literal = .object properties
  built : ∀ {id}, grown.Allocated id → ¬p.tree.Allocated id → q.node id = grown.node id
  thins : ∀ {list statements}, p.tree.Allocated list → (p.node list).statements? = some statements →
    (q.node list).statements? = some (statements.filter (· ∉ entries.map Entry.statement))

section Step

variable {placed : NodeId} (steady : p.Steady) (attached : p.tree.isWithin declarator p.root = true)
  (planned : plan? p declarator = some (object, entries))
  (building : p.tree.Building properties grown)
  (clears : Clears { p with tree := grown } (entries.map Entry.statement) between)
  (done : Program.replace { between with tree := (Tree.alloc (.object properties) between.tree).2 }
    object.init (Tree.alloc (.object properties) between.tree).1 = .ok (placed, q))

include steady attached planned building clears

theorem loose_of_mem :
    ∀ property ∈ properties, between.tree.IsTop property ∧ property ≠ between.root := by
  intro property member
  have loose := building.loose property member
  have cleared := clears.cleared (steady.grow building).1
    ((exists_apart_of_plan? steady attached planned).1.grow steady.linked steady.isTop
      building.grows)
  refine ⟨cleared.top ⟨loose.allocated, loose.detached⟩, ?_⟩
  rw [cleared.leads.root]
  rintro rfl
  exact loose.new steady.isTop.allocated

theorem aligned_adopt (aligned : o.Aligned may p)
    (isMay : ∀ entry ∈ entries, o.tree.Allocated entry.statement → may entry.statement) :
    o.Aligned may { between with tree := (Tree.alloc (.object properties) between.tree).2 } := by
  have apart := (exists_apart_of_plan? steady attached planned).1.grow steady.linked steady.isTop
    building.grows
  have further := clears.aligned (aligned.extend (steady.grow building).1 building.grows) apart
    (by simpa using isMay)
  exact further.adopt (loose_of_mem steady attached planned building clears)
    (fun property member isOld =>
      (building.loose property member).new (aligned.toRemnant.allocated isOld))
    building.distinct (by simp [Node.part])

theorem thinned : p.Thinned grown (entries.map Entry.statement) between :=
  clears.thinned steady (exists_apart_of_plan? steady attached planned).1 building

theorem not_allocated_literal :
    ¬p.tree.Allocated (Tree.alloc (.object properties) between.tree).1 := fun isOld =>
      between.tree.not_allocated_next
        ((thinned steady attached planned building clears).leads.allocated
          isOld)

include done

theorem aligned (aligned : o.Aligned may p)
    (isMay : ∀ entry ∈ entries, o.tree.Allocated entry.statement → may entry.statement)
    (isMayInit : o.tree.Allocated object.init → may object.init) : o.Aligned may q := by
  have adopted := aligned_adopt steady attached planned building clears aligned isMay
  have free : p.Free object.init := .of_isPlain steady (by rw [shape_of_plan? planned]; rfl)
  have nowFree := free.leads (aligned_adopt steady attached planned building clears (.start steady)
    fun _ _ _ => trivial : p.Aligned (fun _ => True) _).leads
  exact adopted.replace nowFree.notBinding nowFree.notDeclaring
    (Tree.allocated_alloc.mpr (.inr rfl))
    (fun isOld => not_allocated_literal steady attached planned building clears
      (aligned.toRemnant.allocated isOld))
    isMayInit done

theorem filled :
    Filled p declarator object entries properties grown
      (Tree.alloc (.object properties) between.tree).1 q := by
  have isNew := not_allocated_literal steady attached planned building clears
  have adopted := (thinned steady attached planned building clears).adopt (.object properties)
    (loose_of_mem steady attached planned building clears)
    (fun property member => (building.loose property member).new) building.distinct
    (by simp [Node.part])
  obtain ⟨-, initAttached, initOutside⟩ := exists_apart_of_plan? steady attached planned
  have shape := shape_of_plan? planned
  have made : Program.node { between with tree := (Tree.alloc (.object properties) between.tree).2 }
      (Tree.alloc (.object properties) between.tree).1 = .object properties := by
    rw [Program.node, Tree.node_alloc]
    exact if_pos rfl
  have regrouped := adopted.replace steady (.of_isPlain steady (by rw [shape]; rfl)) initAttached
    (by
      rintro ⟨statement, member, within⟩
      rw [initOutside statement member] at within
      cases within) isNew
    (Tree.allocated_alloc.mpr (.inr rfl)) (.inl (by rw [shape]; rfl)) done
  have initHeld : p.tree.parent? object.init = some declarator := by
    obtain ⟨_, isDeclarator, -⟩ := shape_of_emptyObject? (of_plan? planned).1
    rw [← steady.linked.mem_children, show p.tree.node declarator = _ from isDeclarator]
    simp [Node.children]
  refine ⟨regrouped.steady, regrouped.leads, adopted.size.trans regrouped.size, regrouped.drops,
    regrouped.held.trans initHeld, (regrouped.built isNew).trans made,
    fun allocated isOther => (regrouped.built isOther).trans (adopted.built allocated isOther),
    fun {list statements} allocated isList => ?_⟩
  have notInit : object.init ∉ (p.tree.node list).children := by
    rw [steady.linked.mem_children, initHeld, Option.some.injEq]
    rintro rfl
    obtain ⟨_, isDeclarator, -⟩ := shape_of_emptyObject? (of_plan? planned).1
    rw [isDeclarator] at isList
    cases isList
  obtain ⟨outer, listed, isOuter, inside⟩ := exists_list_of_plan? planned
  by_cases isSame : list = outer
  · subst isSame
    rw [isOuter, Option.some.injEq] at isList
    subst isList
    exact (regrouped.thins allocated isOuter (List.forall_mem_map.mpr inside)).1 notInit
  · have notHeld : ∀ id ∈ entries.map Entry.statement, id ∉ (p.tree.node list).children :=
      List.forall_mem_map.mpr fun entry member isChild => isSame
        (Option.some.inj ((steady.linked.mem_children.mp isChild).symm.trans
          (steady.linked.mem_children.mp (Node.mem_children_of_statements? isOuter
            (inside entry member)))))
    rw [regrouped.node allocated notHeld notInit, isList, Option.some.injEq, eq_comm,
      List.filter_eq_self]
    intro id member
    exact decide_eq_true
      fun isGone => notHeld id isGone (Node.mem_children_of_statements? isList member)

end Step

/-! ### What a run has left -/

theorem aligned_of_step {w v : Workspace} {changed : Bool} (aligned : o.Aligned may w.program)
    (attached : w.program.isAttached declarator = true)
    (stepped : step declarator w = .ok changed v)
    (isMay : ∀ object entries, plan? w.program declarator = some (object, entries) →
      (∀ entry ∈ entries, o.tree.Allocated entry.statement → may entry.statement) ∧
        (o.tree.Allocated object.init → may object.init)) : o.Aligned may v.program := by
  rcases exists_of_step stepped with
    ⟨-, rfl⟩ | ⟨object, entries, between, placed, -, planned, clears, done⟩
  · exact aligned
  · have steady := aligned.steady
    rw [isAttached_eq steady.linked steady.isTop.top] at attached
    obtain ⟨statements, init⟩ := isMay object entries planned
    exact ObjectLiteral.aligned steady attached planned (building_properties steady entries) clears
      done aligned statements init

theorem filled_of_step {w v : Workspace} (steady : w.program.Steady)
    (attached : w.program.isAttached declarator = true) (stepped : step declarator w = .ok true v) :
    ∃ object entries literal,
      plan? w.program declarator = some (object, entries) ∧
        Filled w.program declarator object entries (entries.mapM property w.program.tree).1
          (entries.mapM property w.program.tree).2 literal v.program := by
  obtain ⟨object, entries, between, placed, -, planned, clears, done⟩ :=
    (exists_of_step stepped).resolve_left (by simp)
  rw [isAttached_eq steady.linked steady.isTop.top] at attached
  exact ⟨object, entries, _, planned,
    filled steady attached planned (building_properties steady entries) clears done⟩

/--
What filling objects takes out of a program: statements and empty objects that initialize variables.
-/
def Takes (o : Program) (id : NodeId) : Prop :=
  (∃ expression, o.node id = .expressionStatement expression) ∨
    o.node id = .object [] ∧
    ∃ holder, o.tree.parent? id = some holder ∧ (o.node holder).isDeclarator = true

theorem takes_init (aligned : o.Aligned (Takes o) p)
    (sorted : o.tree.Sorted fun id => o.isAttached id = true)
    (attached : p.isAttached declarator = true)
    (planned : plan? p declarator = some (object, entries)) (isOld : o.tree.Allocated object.init) :
    Takes o object.init := by
  have linked := aligned.origin.linked
  have linkedNow := aligned.steady.linked
  obtain ⟨target, shape, isEmpty, -⟩ := shape_of_emptyObject? (of_plan? planned).1
  have isInit : object.init ∈ (p.tree.node declarator).children := by
    rw [show p.tree.node declarator = _ from shape]
    simp [Node.children]
  have heldNow := linkedNow.mem_children.mp isInit
  have attachedInit : p.isAttached object.init = true := by
    have rooted := aligned.toRemnant.rooted
    rw [isAttached_eq rooted.linked rooted.isTop.top] at attached ⊢
    exact linkedNow.isWithin_trans (linkedNow.isWithin_of_parent heldNow) attached
  obtain ⟨before, same⟩ := aligned.parent isOld attachedInit
  have held : o.tree.parent? object.init = some declarator := same.symm.trans heldNow
  have isDeclarator : (o.node declarator).isDeclarator = true := by
    rw [← Node.isDeclarator_tag, ← aligned.toRemnant.tag (linked.allocated_parent held),
      Node.isDeclarator_tag, shape]
    rfl
  obtain ⟨properties, isObject⟩ := Node.exists_object_of_tag (n := o.node object.init) (by
    rw [← aligned.toRemnant.tag isOld, isEmpty]
    rfl)
  refine .inr ⟨?_, declarator, held, isDeclarator⟩
  rw [isObject, Node.object.injEq, List.eq_nil_iff_forall_not_mem]
  intro child member
  have isChild : child ∈ (o.tree.node object.init).children := by
    rw [show o.tree.node object.init = _ from isObject]
    exact member
  have childHeld := linked.mem_children.mp isChild
  obtain ⟨childBefore, admitted⟩ := sorted.child before isChild
  have isOperand :=
    Node.isOperand_of_admits admitted (by rw [show o.tree.node object.init = _ from isObject]; rfl)
  have notStatement : (o.node child).isStatement = false := by
    cases shape : o.node child <;> simp_all [Node.isOperand, Node.isStatement, Program.node]
  cases childNow : p.isAttached child with
  | true =>
    have isChildNow := linkedNow.mem_children.mpr
      ((aligned.parent (Tree.allocated_of_parent? childHeld) childNow).2.trans childHeld)
    rw [show p.tree.node object.init = _ from isEmpty] at isChildNow
    cases isChildNow
  | false =>
    rcases aligned.gone childBefore childNow with isDeclaration | ⟨outer, takes, within, isGone⟩
    · cases shape : o.node child <;> simp_all [Node.isVariableDeclaration, Node.isStatement]
    · by_cases isOuter : child = outer
      · subst isOuter
        rcases takes with ⟨expression, shape⟩ | ⟨-, holder, holds, isHolder⟩
        · rw [shape] at notStatement
          cases notStatement
        · rw [childHeld, Option.some.injEq] at holds
          rw [← holds, isObject] at isHolder
          cases isHolder
      · rw [linked.isWithin_parent childHeld isOuter] at within
        rw [(aligned.isAttached_of_isWithin before attachedInit within).2] at isGone
        cases isGone

def Shortens (o q : Program) : Prop :=
  ∀ {list statements}, o.tree.Allocated list → (q.node list).statements? = some statements →
    ∃ before, (o.node list).statements? = some before ∧ statements.Sublist before

theorem shortens_of_step {w v : Workspace} {changed : Bool} (steady : w.program.Steady)
    (leads : o.Leads w.program) (shortens : Shortens o w.program)
    (attached : w.program.isAttached declarator = true)
    (stepped : step declarator w = .ok changed v) : Shortens o v.program := by
  cases changed with
  | false =>
    obtain ⟨-, rfl⟩ | ⟨_, _, _, _, isTrue, -⟩ := exists_of_step stepped
    · exact shortens
    · cases isTrue
  | true =>
    obtain ⟨object, entries, literal, -, filled⟩ := filled_of_step steady attached stepped
    intro list statements isOld isList
    have isNow := leads.allocated isOld
    obtain ⟨between, isListBetween⟩ := Option.isSome_iff_exists.mp
      ((Node.isSome_statements?_congr (filled.leads.tag isNow)).symm.trans
        (Option.isSome_of_eq_some isList))
    obtain ⟨before, isListBefore, fewer⟩ := shortens isOld isListBetween
    rw [filled.thins isNow isListBetween, Option.some.injEq] at isList
    exact ⟨before, isListBefore, isList ▸ List.filter_sublist.trans fewer⟩

theorem aligned_of_visits {found left last : Workspace} (steady : p.Steady)
    (sorted : p.tree.Sorted fun id => p.isAttached id = true)
    (visits : Visits (fun p id => isDeclarator (p.node id)) step ⟨p, c⟩ declarator
      found left last) :
    (p.Aligned (Takes p) found.program ∧ Shortens p found.program) ∧
      (p.Aligned (Takes p) left.program ∧ Shortens p left.program) ∧
        p.Aligned (Takes p) last.program ∧ Shortens p last.program := by
  have each {id : NodeId} {w v : Workspace} {changed : Bool}
      (before : p.Aligned (Takes p) w.program ∧ Shortens p w.program)
      (attached : w.program.isAttached id = true) (stepped : step id w = .ok changed v) :
      p.Aligned (Takes p) v.program ∧ Shortens p v.program := by
    obtain ⟨aligned, shortens⟩ := before
    refine ⟨aligned_of_step aligned attached stepped fun object entries planned =>
      ⟨fun entry member isOld => .inl ?_, takes_init aligned sorted attached planned⟩,
      shortens_of_step aligned.steady aligned.leads shortens attached stepped⟩
    obtain ⟨_, _, _, _, _, _, _, _, -, -, -, -, shape, -⟩ := of_mem_plan planned member
    exact Node.exists_expressionStatement_of_tag (aligned.toRemnant.tag isOld) shape
  have atFound := visits.invariant (fun q => p.Aligned (Takes p) q ∧ Shortens p q)
    ⟨.start steady, fun _ isList => ⟨_, isList, .refl _⟩⟩
    fun id w changed v before attached _ => each before attached
  have stepped := each atFound visits.attached visits.stepped
  exact ⟨atFound, stepped, visits.invariant_last (fun q => p.Aligned (Takes p) q ∧ Shortens p q)
    stepped fun id w changed v before attached _ _ => each before attached⟩

end ObjectLiteral

end Unravel
