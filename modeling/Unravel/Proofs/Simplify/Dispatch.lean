import Unravel.Proofs.Simplify.Named
import Unravel.Proofs.Simplify.Orderly
import Unravel.Proofs.Tree.Term

/-!
What a flattened loop does and what comes into its place. Around a switch over an element of an
array the loop selects a case in each round, until the element selects none (`FlatLoop.Rounds`).
Unflattening does not look at the index of the element: it takes the cases that are selected while
the index counts the elements (`FlatLoop.counted_rounds_of_step`).
-/

namespace Unravel

namespace Tree

variable {t mid : Tree} {held : List NodeId}

theorem Assembly.map_term (assembly : t.Assembly held mid) (linked : t.Linked) {roots : List NodeId}
    (allocated : ∀ root ∈ roots, t.Allocated root) :
    (roots.mapM Tree.copy mid).1.map (roots.mapM Tree.copy mid).2.term = roots.map t.term := by
  have copies := assembly.forall₂_mapM roots (fun root _ _ => yields_copy_assembly root)
    (fun root copy after => t.term root = after.term copy)
    (fun root member _ mid assembly => ?_)
    fun linked allocated grows same => same.trans (grows.term_eq linked allocated).symm
  · rw [← List.forall₂_eq_eq_eq, List.forall₂_map_left_iff, List.forall₂_map_right_iff]
    exact copies.flip.imp fun _ _ same => same.symm
  · obtain ⟨copied, isCopy⟩ := assembly.grows.linked.copied assembly.nonempty root
    have result :=
      copied.term_eq assembly.grows.linked (assembly.grows.allocated (allocated root member))
    rw [← isCopy] at result
    exact (result.trans (assembly.grows.term_eq linked (allocated root member))).symm

end Tree

namespace FlatLoop

open SimplifyM Program

variable {o p q : Program} {loop index case : NodeId} {items : List Value}
  {cases statements : List NodeId} {value : Value}
  {selected other : Option NodeId} {indices : Nat → Value} {round : Nat} {entered : List NodeId}

/-! ### Loops that dispatch -/

def element? (items : List Value) (index : Value) : Option Value :=
  (Program.keyText? index).bind (Method.property? (.array items))

/-- The rounds of a loop from one of them on, where `indices` are the values that the index has in
them: the element at the index selects the case that is entered, and where it selects none, the loop
is left. -/
inductive Rounds (p : Program) (items : List Value) (cases : List NodeId) (indices : Nat → Value) :
    Nat → List NodeId → Prop where
  | leave {round : Nat} {element : Value} (read : element? items (indices round) = some element)
      (selects : Selects p element cases none) : Rounds p items cases indices round []
  | enter {round : Nat} {element : Value} {case : NodeId} {entered : List NodeId}
      (read : element? items (indices round) = some element)
      (selects : Selects p element cases (some case))
      (further : Rounds p items cases indices (round + 1) entered) :
      Rounds p items cases indices round (case :: entered)

theorem Rounds.unique {others : List NodeId} (rounds : Rounds p items cases indices round entered)
    (again : Rounds p items cases indices round others) : entered = others := by
  induction rounds generalizing others with
  | leave read selects =>
    cases again with
    | leave => rfl
    | enter readAgain selectsAgain =>
      rw [read, Option.some.injEq] at readAgain
      cases selects.unique (readAgain ▸ selectsAgain)
  | enter read selects _ induction =>
    cases again with
    | leave readAgain selectsAgain =>
      rw [read, Option.some.injEq] at readAgain
      cases selects.unique (readAgain ▸ selectsAgain)
    | enter readAgain selectsAgain further =>
      rw [read, Option.some.injEq] at readAgain
      cases selects.unique (readAgain ▸ selectsAgain)
      rw [induction further]

/-! ### Indices that count -/

def blockOf (statements : List NodeId) :
    StateM Tree NodeId := do Tree.alloc (.block (← statements.mapM Tree.copy))

theorem exists_of_step {c : Context} {w : Workspace} {changed : Bool}
    (ran : step loop ⟨p, c⟩ = .ok changed w) :
    (plan? p loop = none ∧ changed = false) ∨
    ∃ statements count placed, plan? p loop = some (statements, count) ∧
      changed = true ∧ Program.replace { p with tree := (blockOf statements p.tree).2 } loop
        (blockOf statements p.tree).1 = .ok (placed, w.program) := by
  rw [step, program_bind] at ran
  cases planned : plan? p loop with
  | none =>
    simp only [planned] at ran
    obtain ⟨rfl, -⟩ := EStateM.Result.ok.inj ran
    exact .inl ⟨rfl, rfl⟩
  | some plan =>
    obtain ⟨statements, count⟩ := plan
    simp only [planned, build_bind] at ran
    obtain ⟨placed, after, replaced, ran⟩ := exists_of_bind_ok ran
    obtain ⟨_, last, recorded, ran⟩ := exists_of_bind_ok ran
    obtain ⟨rfl, rfl⟩ := EStateM.Result.ok.inj ran
    obtain ⟨-, rfl⟩ := EStateM.Result.ok.inj recorded
    exact .inr ⟨statements, count, placed, rfl, rfl, of_replace_eq_ok replaced⟩

theorem exists_copies (rooted : p.Rooted)
    (allocated : ∀ statement ∈ statements, p.tree.Allocated statement) :
    ∃ copies, p.tree.Assembly [(blockOf statements p.tree).1] (blockOf statements p.tree).2 ∧
      (blockOf statements p.tree).2.node (blockOf statements p.tree).1 = .block copies ∧
      copies.map (blockOf statements p.tree).2.term = statements.map p.tree.term := by
  have start := Tree.Assembly.start rooted.linked rooted.nonempty
  have terms := start.map_term rooted.linked allocated
  have filled := (Tree.workshop_assembly p.tree).mapM statements
    (fun item _ => Tree.yields_copy_assembly item) [] _ start
  have made : blockOf statements p.tree = Tree.alloc (.block (statements.mapM Tree.copy p.tree).1)
      (statements.mapM Tree.copy p.tree).2 := rfl
  rw [made]
  generalize (statements.mapM Tree.copy p.tree).1 = copies at *
  generalize (statements.mapM Tree.copy p.tree).2 = mid at *
  have assembly := filled.alloc (.block copies)
  refine ⟨copies, assembly, ?_, ?_⟩
  · rw [Tree.node_alloc]
    exact if_pos rfl
  · rw [← terms]
    refine List.map_congr_left fun copy member => ?_
    have isLoose := filled.loose copy (List.mem_append_left _ member)
    refine filled.grows.linked.term_congr assembly.grows.linked isLoose.allocated fun within => ?_
    have isAllocated := filled.grows.linked.allocated_of_isWithin within isLoose.allocated
    exact ⟨Tree.allocated_alloc.mpr (.inl isAllocated), Tree.node_alloc_of_allocated isAllocated⟩

/-- A node is the block of statements with given terms, or the only one of them. -/
def IsBlockOf (t : Tree) (id : NodeId) (terms : List Term) : Prop :=
  t.term id = .mk (.block terms) ∨ ∃ term, terms = [term] ∧ t.term id = term

theorem isBlockOf_of_replace {after : Program} {placed : NodeId} (rooted : p.Rooted)
    (allocated : ∀ statement ∈ statements, p.tree.Allocated statement)
    (done : Program.replace { p with tree := (blockOf statements p.tree).2 } loop
      (blockOf statements p.tree).1 = .ok (placed, after)) :
    Puts { p with tree := (blockOf statements p.tree).2 } loop placed after ∧
      IsBlockOf after.tree placed (statements.map p.tree.term) := by
  obtain ⟨copies, assembly, isBlock, terms⟩ := exists_copies rooted allocated
  have loose := assembly.loose _ (List.mem_cons_self ..)
  generalize (blockOf statements p.tree).1 = block at *
  generalize (blockOf statements p.tree).2 = grown at *
  have grownLinked := assembly.grows.linked
  have rootedGrown : Program.Rooted { p with tree := grown } := rooted.grow assembly.grows
  refine ⟨rootedGrown.puts_of_replace loose.allocated done, ?_⟩
  obtain ⟨replaceable, isPlaced, attaches⟩ := replace_eq_ok_iff.mp done
  have staging := rootedGrown.staging loose.allocated replaceable
  rw [IsBlockOf, (eq_of_fixReferences attaches).1, isPlaced,
    staging.edited.term_eq staging.unwrapped.linked staging.possible]
  rcases unwrap_cases rootedGrown.linked loop block with
    same | ⟨inner, tree, same, -, shape, held, edited, possible⟩
  · rw [same]
    refine .inl ?_
    rw [grownLinked.term_eq loose.allocated, isBlock, ← terms]
    simp [Node.map, Node.traverse]
  · rw [same]
    refine .inr ⟨grown.term inner, ?_, ?_⟩
    · rw [show grown.node block = _ from shape] at isBlock
      rw [← terms, ← Node.block.inj isBlock]
      rfl
    · have isAllocated := Tree.allocated_of_parent? held
      refine grownLinked.term_congr (edited.linked grownLinked possible) isAllocated
        fun {id} within => ?_
      exact ⟨edited.allocated.mpr (grownLinked.allocated_of_isWithin within isAllocated),
        edited.kept id fun member =>
          grownLinked.ne_of_isWithin_child (grownLinked.mem_children.mp member) within rfl⟩

theorem exists_isBlockOf_of_step {c : Context} {w : Workspace} (rooted : p.Rooted)
    (ran : step loop ⟨p, c⟩ = .ok true w) :
    ∃ statements count placed, plan? p loop = some (statements, count) ∧
      p.Puts loop placed w.program ∧
      IsBlockOf w.program.tree placed (statements.map p.tree.term) := by
  have linked := rooted.linked
  obtain ⟨statements, count, placed, planned, -, done⟩ :=
    (exists_of_step ran).resolve_left (by simp)
  obtain ⟨test, body, shape, inside⟩ := isWithin_of_plan? linked planned
  have held : p.tree.parent? body = some loop := by
    rw [← linked.mem_children, shape]
    simp [Node.children]
  have allocated : ∀ statement ∈ statements, p.tree.Allocated statement := fun statement member =>
    linked.allocated_of_isWithin (inside statement member) (Tree.allocated_of_parent? held)
  obtain ⟨puts, isBlock⟩ := isBlockOf_of_replace rooted allocated done
  obtain ⟨copies, assembly, -⟩ := exists_copies rooted allocated
  exact ⟨statements, count, placed, planned,
    puts.of_grown (linked.allocated_parent held) linked assembly.grows, isBlock⟩

/-- Makes a step at each of several loops that is still in the program. -/
def sweep (loops : List NodeId) :
    SimplifyM Bool := anyChange loops fun id => ifAttached id (step id)

theorem run_eq : run = nodesWhere (fun p id => isLoop (p.node id)) >>= sweep := rfl

theorem orderly_sweep {aim : Aim} (loops : List NodeId) (here : o.Orderly aim p p)
    (notNames : aim ≠ .names) :
    Along (o.Orderly aim) p (sweep loops) any :=
  .anyChange (Along.course o aim) here fun _ _ _ leads =>
    .ifAttached leads.stay fun attached => (orderly_step leads.stay notNames attached).toAny

end FlatLoop

/-- The tree of `const order = [true]; while (true) { switch (order[i]) { case true: g(); continue;
} break; }`, or with `"1"` for the index, or with `while (true) break;` in the case. -/
def dispatching (counting jumping : Bool) : Tree :=
  ⟨#[⟨.identifier "order", some ⟨3⟩⟩, ⟨.literal (.boolean true), some ⟨2⟩⟩,
    ⟨.array [⟨1⟩], some ⟨3⟩⟩, ⟨.variableDeclarator ⟨0⟩ (some ⟨2⟩), some ⟨4⟩⟩,
    ⟨.variableDeclaration .const [⟨3⟩], some ⟨19⟩⟩, ⟨.literal (.boolean true), some ⟨18⟩⟩,
    ⟨.identifier "order", some ⟨8⟩⟩,
    ⟨if counting then .identifier "i" else .literal (.string "1" none), some ⟨8⟩⟩,
    ⟨.member ⟨6⟩ ⟨7⟩ true, some ⟨15⟩⟩, ⟨.literal (.boolean true), some ⟨14⟩⟩,
    if jumping then ⟨.literal (.boolean true), some ⟨12⟩⟩ else ⟨.identifier "g", some ⟨11⟩⟩,
    if jumping then ⟨.break_, some ⟨12⟩⟩ else ⟨.call ⟨10⟩ [], some ⟨12⟩⟩,
    ⟨if jumping then .while_ ⟨10⟩ ⟨11⟩ else .expressionStatement ⟨11⟩, some ⟨14⟩⟩,
    ⟨.continue_, some ⟨14⟩⟩, ⟨.switchCase (some ⟨9⟩) [⟨12⟩, ⟨13⟩], some ⟨15⟩⟩,
    ⟨.switch ⟨8⟩ [⟨14⟩], some ⟨17⟩⟩, ⟨.break_, some ⟨17⟩⟩, ⟨.block [⟨15⟩, ⟨16⟩], some ⟨18⟩⟩,
    ⟨.while_ ⟨5⟩ ⟨17⟩, some ⟨19⟩⟩, ⟨.program [⟨4⟩, ⟨18⟩], none⟩]⟩

theorem exists_isDispatcher (counting jumping : Bool) :
    ∃ p, Program.ofTree (dispatching counting jumping) ⟨19⟩ = .ok p ∧
      p.Reached ∧ p.Steady ∧ p.tree = dispatching counting jumping ∧ p.root = ⟨19⟩ ∧
        FlatLoop.IsDispatcher p ⟨18⟩ ⟨7⟩ [.bool true] [⟨14⟩] ∧
        p.evaluate? ⟨9⟩ = some (.bool true) := by
  have linked : (dispatching counting jumping).Linked :=
    Tree.linked_of_checks (by cases counting <;> cases jumping <;> decide)
  have isTop : (dispatching counting jumping).IsTop ⟨19⟩ :=
    ⟨by cases counting <;> cases jumping <;> decide, by cases counting <;> cases jumping <;> decide⟩
  obtain ⟨scopes, made, steady⟩ := Program.exists_steady (dispatching counting jumping)
    ⟨19⟩ linked isTop (Tree.wellBound_of_bindsWell (by cases counting <;> cases jumping <;> decide))
    rfl
  have means : ((dispatching counting jumping).lexicon ⟨19⟩).meaning? ⟨6⟩ =
      some ⟨⟨19⟩, "order", .const, ⟨3⟩, ⟨0⟩⟩ := by
    cases counting <;> cases jumping <;> decide
  have unwritten (id : NodeId) : ¬((dispatching counting jumping).lexicon ⟨19⟩).Writes
      ⟨⟨19⟩, "order", .const, ⟨3⟩, ⟨0⟩⟩ id :=
    Program.not_writes linked isTop (by cases counting <;> cases jumping <;> decide)
      (by cases counting <;> cases jumping <;> decide) _ id
  set p : Program := ⟨dispatching counting jumping, ⟨19⟩, scopes, false⟩ with isProgram
  obtain ⟨binding, stands, noWrites, belongs⟩ := steady.sound.exists_unwritten unwritten means
  have literal {id : NodeId} (isLiteral : p.node id = .literal (.boolean true)) (limit : Nat) :
      p.evaluateWithin (limit + 1) id = some (.bool true) := by
    rw [Program.evaluateWithin, isLiteral]
    rfl
  have isArray : p.evaluate? ⟨2⟩ = some (.array [.bool true]) := by
    have isElement : p.evaluateWithin 64 ⟨1⟩ = some (.bool true) := literal rfl 63
    rw [Program.evaluate?, Program.evaluateWithin, show p.node ⟨2⟩ = .array [⟨1⟩] from rfl]
    change (do return Value.array (← [(⟨1⟩ : NodeId)].mapM (p.evaluateWithin 64))) = _
    simp [isElement]
  have uses : p.usedBinding? ⟨6⟩ = some binding := by
    rw [Program.usedBinding?, belongs ⟨6⟩ means, Option.filter_some,
      show (p.binding binding).identifier = ⟨0⟩ from stands.identifier]
    rfl
  have constant : p.isConstantVariable binding = true := by
    rw [steady.sound.isConstantVariable_eq stands noWrites]
    rfl
  have dispatcher : FlatLoop.IsDispatcher p ⟨18⟩ ⟨7⟩ [.bool true] [⟨14⟩] :=
    .intro rfl rfl rfl rfl rfl (literal rfl 64) rfl uses constant
      (Program.initialized?_of_stands stands rfl) isArray
  exact ⟨p, made, .made linked isTop made, steady, rfl, rfl, dispatcher, literal rfl 64⟩

theorem exists_dispatching (counting jumping : Bool) : ∃ p w,
    Program.ofTree (dispatching counting jumping) ⟨19⟩ = .ok p ∧ p.Reached ∧ p.Steady ∧
      w.program.Steady ∧
        p.tree = dispatching counting jumping ∧ p.root = ⟨19⟩ ∧
          FlatLoop.IsDispatcher p ⟨18⟩ ⟨7⟩ [.bool true] [⟨14⟩] ∧
            FlatLoop.tested? p ⟨14⟩ = some (.bool true) ∧ FlatLoop.plan? p ⟨18⟩ = some ([⟨12⟩], 1) ∧
              p.isAttached ⟨18⟩ = true ∧ FlatLoop.step ⟨18⟩ ⟨p, default⟩ = .ok true w := by
  obtain ⟨p, made, reached, steady, isTree, isRoot, dispatcher, isTest⟩ :=
    exists_isDispatcher counting jumping
  have isCase : FlatLoop.case? p ⟨14⟩ = some (.bool true, [⟨12⟩]) := by
    have stays : FlatLoop.jumpsOut p.tree ⟨12⟩ = false := by
      rw [isTree]
      cases counting <;> cases jumping <;> decide
    have isSwitchCase : p.node ⟨14⟩ = .switchCase (some ⟨9⟩) [⟨12⟩, ⟨13⟩] := by
      rw [Program.node, isTree]
      rfl
    have isLast : p.node ⟨13⟩ = .continue_ := by
      rw [Program.node, isTree]
      rfl
    rw [FlatLoop.case?, isSwitchCase]
    simp [isTest, isLast, stays]
  have planned : FlatLoop.plan? p ⟨18⟩ = some ([⟨12⟩], 1) := by
    rw [FlatLoop.plan?, FlatLoop.exists_dispatch?_iff.mpr ⟨_, dispatcher⟩]
    simp [isCase, FlatLoop.addCase, Value.strictEquals?]
  have within : p.tree.isWithin ⟨18⟩ p.root = true := by
    rw [isTree, isRoot]
    cases counting <;> cases jumping <;> decide
  obtain ⟨changed, w, stepped, steadyAfter, -⟩ :=
    (FlatLoop.dismantles steady within).exists_ok default
  refine ⟨p, w, made, reached, steady, steadyAfter, isTree, isRoot, dispatcher, ?_, planned, ?_, ?_⟩
  · rw [FlatLoop.tested?, Program.node, isTree]
    exact isTest
  · rw [Program.isAttached_eq steady.linked steady.isTop.top, within]
  · rcases FlatLoop.exists_of_step stepped with ⟨none, -⟩ | ⟨-, -, -, -, rfl, -⟩
    · rw [planned] at none
      cases none
    · exact stepped

end Unravel
