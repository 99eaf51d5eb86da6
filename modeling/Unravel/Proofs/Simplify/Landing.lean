import Unravel.Proofs.Simplify.Dispatch
import Unravel.Proofs.Tree.Sorted

/-!
Rules keep programs structured: their nodes stand where they may and their jumps go to loops and
switches of the same function (`Program.Structured`). A jump goes to the nearest node above that
catches it, in the function around it (`Tree.jumpTarget?`). A jump at or below a node goes to
something below or at that node, or out of it, or out of a function below it
(`Tree.Linked.jump_cases`). The jumps in what takes the place of a flattened loop go to loops and
switches in it (`Program.Reached.structured_after_runs`).
-/

namespace Unravel

/-! ### Terms of statements -/

namespace Node

variable {α β : Type} {f : α → β} {n : Node α}

theorem map_eq_break_iff : n.map f = .break_ ↔ n = .break_ := by
  cases n <;> simp [map, traverse, run_mapM_option]

theorem map_eq_while_iff {test body : β} : n.map f = .while_ test body ↔
    ∃ condition inner, n = .while_ condition inner ∧ f condition = test ∧ f inner = body := by
  cases n with
  | while_ => simp [map, traverse]
  | _ => simp [map, traverse, run_mapM_option]

theorem map_eq_block_iff {statements : List β} : n.map f = .block statements ↔
    ∃ before, n = .block before ∧ before.map f = statements := by
  cases n <;> simp [map, traverse, run_mapM_option]

end Node

namespace Tree

variable {t : Tree} {id : NodeId} {test : Term}

theorem Linked.map_node_eq (linked : t.Linked) (allocated : t.Allocated id) {n : Node Term}
    (same : t.term id = .mk n) :
    (t.node id).map t.term = n :=
  Term.mk.inj ((linked.term_eq allocated).symm.trans same)

theorem Linked.exists_break_of_while (linked : t.Linked) (allocated : t.Allocated id)
    (same : t.term id = .mk (.while_ test (.mk .break_))) :
    ∃ jump, t.isWithin jump id = true ∧ t.node jump = .break_ := by
  obtain ⟨condition, body, shape, -, isBreak⟩ :=
    Node.map_eq_while_iff.mp (linked.map_node_eq allocated same)
  have held : t.parent? body = some id := linked.mem_children.mp (by simp [shape, Node.children])
  exact ⟨body, linked.isWithin_of_parent held,
    Node.map_eq_break_iff.mp (linked.map_node_eq (allocated_of_parent? held) isBreak)⟩

theorem Linked.exists_break (linked : t.Linked) (allocated : t.Allocated id)
    (isBlock : FlatLoop.IsBlockOf t id [.mk (.while_ test (.mk .break_))]) :
    ∃ jump, t.isWithin jump id = true ∧ t.node jump = .break_ := by
  rcases isBlock with block | ⟨_, single, same⟩
  · obtain ⟨before, shape, mapped⟩ := Node.map_eq_block_iff.mp (linked.map_node_eq allocated block)
    obtain ⟨loop, rfl, isLoop⟩ := List.map_eq_singleton_iff.mp mapped
    have held : t.parent? loop = some id := linked.mem_children.mp (by simp [shape, Node.children])
    obtain ⟨jump, within, isBreak⟩ := linked.exists_break_of_while (allocated_of_parent? held)
      isLoop
    exact ⟨jump, linked.isWithin_trans within (linked.isWithin_of_parent held), isBreak⟩
  · rw [← List.singleton_inj.mp single] at same
    exact linked.exists_break_of_while allocated same

end Tree

/-! ### Where jumps go -/

namespace Tree

variable {t : Tree} {id parent outer : NodeId} {j : Jump}

def catcher? (t : Tree) (j : Jump) (id : NodeId) : Option NodeId :=
  ((t.ancestors id).takeWhile fun above => !(t.node above).isFunction).find?
    fun above => (t.node above).catches j

/-- The loop or switch that a jump leaves or begins anew. -/
def jumpTarget? (t : Tree) (id : NodeId) : Option NodeId := do
  t.catcher? (← (t.node id).jump?) id

def landsAll (t : Tree) : Bool :=
  (List.range t.size).all fun index => (t.node ⟨index⟩).jump?.isNone ||
    (t.jumpTarget? ⟨index⟩).isSome

theorem jumpTarget?_of_jump (isJump : (t.node id).jump? = some j) :
    t.jumpTarget? id = t.catcher? j id := by
  rw [jumpTarget?, isJump]
  rfl

theorem Linked.catcher?_of_parent (linked : t.Linked) (held : t.parent? id = some parent) :
    t.catcher? j id = if (t.node parent).isFunction then none else
      if (t.node parent).catches j then some parent else t.catcher? j parent := by
  rw [catcher?, linked.ancestors_of_parent held, List.takeWhile_cons]
  cases (t.node parent).isFunction
  · rw [Bool.not_false, if_pos rfl, if_neg (by simp), List.find?_cons]
    cases (t.node parent).catches j <;> rfl
  · rfl

theorem Linked.jump_cases (linked : t.Linked) (isJump : (t.node id).jump? = some j)
    (allocated : t.Allocated outer) (within : t.isWithin id outer = true) :
    t.JumpsOut j outer ∧ t.jumpTarget? id = t.catcher? j outer ∨
      (∃ target, t.jumpTarget? id = some target ∧ t.isWithin target outer = true) ∨
      ∃ function child, t.isWithin function outer = true ∧ (t.node function).isFunction = true ∧
        child ∈ (t.node function).children ∧ t.JumpsOut j child := by
  -- From the jump upwards.
  induction outer, allocated using linked.induction_children with
  | step outer allocated induction =>
    by_cases same : id = outer
    · exact same ▸ .inl ⟨.here isJump, jumpTarget?_of_jump isJump⟩
    · obtain ⟨child, member, below⟩ := linked.exists_child within same
      have held := linked.mem_children.mp member
      have inOuter := linked.isWithin_of_parent held
      rcases induction child held below with ⟨jumpsOut, target⟩ | ⟨target, isTarget, inChild⟩ |
        ⟨f, c, inChild, rest⟩
      · rw [linked.catcher?_of_parent held] at target
        cases isFunction : (t.node outer).isFunction with
        | true => exact .inr (.inr ⟨outer, child, isWithin_self, isFunction, member, jumpsOut⟩)
        | false =>
          rw [isFunction, if_neg (by simp)] at target
          cases catches : (t.node outer).catches j with
          | true => exact .inr (.inl ⟨outer, by rw [target, catches, if_pos rfl], isWithin_self⟩)
          | false =>
            rw [catches, if_neg (by simp)] at target
            exact .inl ⟨.deeper member catches isFunction jumpsOut, target⟩
      · exact .inr (.inl ⟨target, isTarget, linked.isWithin_trans inChild inOuter⟩)
      · exact .inr (.inr ⟨f, c, linked.isWithin_trans inChild inOuter, rest⟩)

theorem JumpsOut.exists_jump (jumpsOut : t.JumpsOut j outer) (linked : t.Linked) :
    ∃ id, t.isWithin id outer = true ∧ (t.node id).jump? = some j ∧
      t.jumpTarget? id = t.catcher? j outer := by
  induction jumpsOut with
  | here isJump => exact ⟨_, isWithin_self, isJump, jumpTarget?_of_jump isJump⟩
  | @deeper outer child member passes notFunction _ induction =>
    have held := linked.mem_children.mp member
    obtain ⟨id, within, isJump, target⟩ := induction
    refine ⟨id, linked.isWithin_trans within (linked.isWithin_of_parent held), isJump, ?_⟩
    rw [target, linked.catcher?_of_parent held, notFunction, if_neg (by simp), passes,
      if_neg (by simp)]

theorem Calm.jump_cases {own : NodeId → Prop} (calm : t.Calm own) (linked : t.Linked)
    (isJump : (t.node id).jump? = some j) (allocated : t.Allocated outer)
    (within : t.isWithin id outer = true) (isOwn : ∀ id, t.isWithin id outer = true → own id) :
    t.JumpsOut j outer ∨
      ∃ target, t.jumpTarget? id = some target ∧ t.isWithin target outer = true := by
  rcases linked.jump_cases isJump allocated within with
    ⟨jumpsOut, -⟩ | found | ⟨function, child, inOuter, isFunction, member, jumpsOut⟩
  · exact .inl jumpsOut
  · exact .inr found
  · refine absurd jumpsOut (calm.stays (isOwn function inOuter) ?_ member)
    rw [Node.isBoundary, isFunction, Bool.true_or]

end Tree

/-! ### Structured programs -/

open SimplifyM Program

variable {o p q : Program}

namespace Program

/--
A program whose nodes stand where they may and whose jumps go to loops and switches of the same
function. -/
structure Structured (p : Program) : Prop where
  sorted : p.tree.Sorted fun id => p.isAttached id = true
  lands : ∀ id j, p.isAttached id = true → (p.node id).jump? = some j →
    ∃ target, p.tree.jumpTarget? id = some target

theorem Rooted.structured_of_checks (rooted : p.Rooted) (isSorted : p.tree.isSorted = true)
    (landsAll : p.tree.landsAll = true) : p.Structured where
  sorted := rooted.sorted_of_isSorted isSorted
  lands id j attached isJump := by
    have isNode := List.mem_range.mpr (rooted.allocated_of_isAttached attached)
    have lands := List.all_eq_true.mp landsAll id.index isNode
    rw [show p.tree.node ⟨id.index⟩ = _ from rfl, show (p.tree.node id).jump? = _ from isJump]
      at lands
    exact Option.isSome_iff_exists.mp lands

theorem Neat.structured (neat : o.Neat p) (calm : o.Calm p) : p.Structured where
  sorted := by
    have rooted := neat.rooted
    refine ⟨fun {id child} attached member =>
      ⟨?_, (neat.tidy.sorted.child (neat.owns_of_isAttached attached) member).2⟩⟩
    rw [isAttached_eq rooted.linked rooted.isTop.top] at attached ⊢
    exact rooted.linked.isWithin_trans (rooted.linked.isWithin_of_parent
      (rooted.linked.mem_children.mp member)) attached
  lands id j attached isJump := by
    have rooted := neat.rooted
    rw [isAttached_eq rooted.linked rooted.isTop.top] at attached
    rcases calm.jump_cases rooted.linked isJump rooted.isTop.allocated attached
      fun _ => neat.owns_of_isWithin with jumpsOut | ⟨target, isTarget, -⟩
    · obtain ⟨body, isProgram⟩ := rooted.isProgram
      rw [Program.node] at isProgram
      cases jumpsOut with
      | here isJump =>
        rw [isProgram] at isJump
        cases isJump
      | deeper member _ _ jumpsOut =>
        refine absurd jumpsOut (calm.stays (neat.owns_of_isWithin Tree.isWithin_self) ?_ member)
        rw [isProgram]
        rfl
    · exact ⟨target, isTarget⟩

theorem Structured.calm (structured : p.Structured) (rooted : p.Rooted) : p.Calm p := by
  have linked := rooted.linked
  refine ⟨fun {id child j} isOwn isBoundary member jumpsOut => ?_⟩
  have attached :=
    isOwn.resolve_right fun missing => missing (Tree.allocated_of_mem_children member)
  have held := linked.mem_children.mp member
  obtain ⟨jump, within, isJump, isTarget⟩ := jumpsOut.exists_jump linked
  have none_ : p.tree.catcher? j child = none := by
    rw [linked.catcher?_of_parent held]
    cases shape : p.tree.node id with
    | function => rfl
    | program body =>
      -- Nothing holds a program, so this is the root.
      have isRoot : id = p.root := by
        by_contra different
        rw [isAttached_eq linked rooted.isTop.top] at attached
        obtain ⟨parent, above, parentAttached⟩ := linked.exists_parent_of_isWithin
          attached different
        rw [← isAttached_eq linked rooted.isTop.top] at parentAttached
        have admitted := (structured.sorted.child parentAttached (linked.mem_children.mpr above)).2
        rw [shape] at admitted
        simp [Node.admits, Node.isOperand, Node.isStatement, Node.isCase, Node.isDeclarator,
          Node.isProgram] at admitted
      rw [if_neg (by simp [Node.isFunction, Node.function?]),
        if_neg (by cases j <;> simp [Node.catches]), Tree.catcher?, isRoot,
        Tree.ancestors_of_root rooted.isTop.top]
      rfl
    | _ =>
      rw [shape] at isBoundary
      cases isBoundary
  have jumpAttached : p.isAttached jump = true := by
    rw [isAttached_eq linked rooted.isTop.top] at attached ⊢
    exact linked.isWithin_trans (linked.isWithin_trans within (linked.isWithin_of_parent held))
      attached
  obtain ⟨target, found⟩ := structured.lands jump j jumpAttached isJump
  rw [isTarget, none_] at found
  cases found

theorem Puts.mem_children {target placed : NodeId} (puts : p.Puts target placed q)
    (linked : p.tree.Linked) :
    ∃ parent, p.tree.parent? target = some parent ∧ placed ∈ (q.tree.node parent).children := by
  obtain ⟨parent, held, shape⟩ := puts
  refine ⟨parent, held, ?_⟩
  rw [shape, Node.children_map]
  exact List.mem_map.mpr ⟨target, linked.mem_children.mpr held, if_pos rfl⟩

theorem Puts.unique {target placed other : NodeId} (puts : p.Puts target placed q)
    (again : p.Puts target other q) (linked : p.tree.Linked) : placed = other := by
  obtain ⟨parent, held, shape⟩ := puts
  obtain ⟨_, heldAgain, shapeAgain⟩ := again
  rw [held, Option.some.injEq] at heldAgain
  subst heldAgain
  have children := congrArg Node.children (shape.symm.trans shapeAgain)
  rw [Node.children_map, Node.children_map] at children
  have same := List.map_inj_left.mp children target (linked.mem_children.mpr held)
  rwa [Node.exchange, if_pos rfl, Node.exchange, if_pos rfl] at same

theorem Puts.owns {target placed : NodeId} (puts : p.Puts target placed q) (neat : o.Neat p)
    (after : o.Neat q) (attached : p.isAttached target = true) :
    o.Owns placed ∧ q.tree.Allocated placed := by
  obtain ⟨parent, held, member⟩ := puts.mem_children neat.rooted.linked
  have isOwn := neat.owns_of_isAttached (neat.rooted.isAttached_parent attached held)
  exact ⟨(after.tidy.sorted.child isOwn member).1,
    Tree.allocated_of_parent? (after.rooted.linked.mem_children.mp member)⟩

end Program

namespace Program

/-- Every rule that succeeds leaves a structured program structured. And whichever loops have been
flattened before, all jumps in what comes into the place of the next one go to loops and switches in
that. -/
theorem Reached.structured_after_runs (reached : p.Reached) (structured : p.Structured) :
    (∀ (rule : Rule) c changed w, rule.run ⟨p, c⟩ = .ok changed w → w.program.Structured) ∧
      ∀ before loop c changed w after, FlatLoop.sweep before ⟨p, c⟩ = .ok changed w →
        ifAttached loop (FlatLoop.step loop) w = .ok true after →
          ∃ placed, w.program.Puts loop placed after.program ∧
            ∀ id j, after.program.tree.isWithin id placed = true →
            (after.program.node id).jump? = some j →
              ∃ target, after.program.tree.jumpTarget? id = some target ∧
                after.program.tree.isWithin target placed = true := by
  obtain ⟨known, keeps⟩ := reached.keeps
  have here : p.Orderly .jumps p p :=
    .jumps (.start keeps structured.sorted) (structured.calm keeps.toRooted)
  constructor
  · intro rule c changed w ran
    have result := rule.orderly here nofun c
    rw [ran] at result
    exact (result.1.neat nofun).structured (result.1.calm rfl)
  · intro before loop c changed w after swept stepped
    have leads := FlatLoop.orderly_sweep before here nofun c
    rw [swept] at leads
    have here := leads.1.stay
    change (if w.program.isAttached loop then FlatLoop.step loop else pure false) w = _ at stepped
    split at stepped
    · rename_i attached
      have result := FlatLoop.orderly_step here nofun attached w.context
      rw [stepped] at result
      obtain ⟨placed, puts, stays⟩ := result.2 rfl rfl
      refine ⟨placed, puts, fun id j within isJump => ?_⟩
      have neat := result.1.neat nofun
      have linked := neat.rooted.linked
      obtain ⟨isOwn, allocated⟩ := puts.owns (here.neat nofun) neat attached
      refine ((result.1.calm rfl).jump_cases linked isJump allocated within
        fun id within => ?_).resolve_left (stays j)
      exact neat.tidy.sorted.own_of_isWithin linked isOwn within
    · cases stepped

/-- The loop in the case of `dispatching` comes into the place of the one that is flattened. Its
jump goes to it, and structured programs stay structured. -/
theorem exists_structured_after_runs :
    ∃ p w placed jump, ofTree (dispatching true true) ⟨19⟩ = .ok p ∧ p.Structured ∧
      (∀ (rule : Rule) c changed w, rule.run ⟨p, c⟩ = .ok changed w → w.program.Structured) ∧
        FlatLoop.sweep [] ⟨p, default⟩ = .ok false ⟨p, default⟩ ∧
          ifAttached ⟨18⟩ (FlatLoop.step ⟨18⟩) ⟨p, default⟩ = .ok true w ∧
          p.Puts ⟨18⟩ placed w.program ∧
            w.program.tree.isWithin jump placed = true ∧ w.program.node jump = .break_ ∧
              ∃ target, w.program.tree.jumpTarget? jump = some target ∧
                w.program.tree.isWithin target placed = true := by
  obtain ⟨p, w, made, reached, steady, steadyAfter, isTree, -, -, -, planned, attached, stepped⟩ :=
    exists_dispatching true true
  have structured := steady.sound.rooted.structured_of_checks (by rw [isTree]; decide)
    (by rw [isTree]; decide)
  have swept : FlatLoop.sweep [] ⟨p, default⟩ = .ok false ⟨p, default⟩ := rfl
  have ran : ifAttached ⟨18⟩ (FlatLoop.step ⟨18⟩) ⟨p, default⟩ = .ok true w := by
    change (if p.isAttached ⟨18⟩ then FlatLoop.step ⟨18⟩ else pure false) _ = _
    rw [if_pos attached, stepped]
  obtain ⟨keeps, stays⟩ := Reached.structured_after_runs reached structured
  obtain ⟨placed, puts, lands⟩ := stays [] ⟨18⟩ default false ⟨p, default⟩ w swept ran
  obtain ⟨statements, count, other, isPlan, putsToo, isBlock⟩ :=
    FlatLoop.exists_isBlockOf_of_step steady.sound.rooted stepped
  obtain rfl := puts.unique putsToo steady.linked
  obtain ⟨rfl, -⟩ := Prod.mk.inj (Option.some.inj (planned.symm.trans isPlan))
  have isLoop :
      p.tree.term ⟨12⟩ = .mk (.while_ (.mk (.literal (.boolean true))) (.mk .break_)) := by
    rw [isTree]
    rfl
  rw [List.map_singleton, isLoop] at isBlock
  obtain ⟨_, -, member⟩ := puts.mem_children steady.linked
  have allocated := Tree.allocated_of_parent? (steadyAfter.linked.mem_children.mp member)
  obtain ⟨jump, within, isBreak⟩ := steadyAfter.linked.exists_break allocated isBlock
  obtain ⟨target, isTarget, inside⟩ := lands jump .break_ within
    (by rw [Program.node, isBreak]; rfl)
  exact ⟨p, w, placed, jump, made, structured, keeps, swept, ran, puts, within, isBreak, target,
    isTarget, inside⟩

end Program

end Unravel
