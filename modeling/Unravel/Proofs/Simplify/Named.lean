import Unravel.Proofs.Program.Change
import Unravel.Proofs.Simplify.Dismantled
import Unravel.Proofs.Simplify.FlatLoop
import Unravel.Proofs.Tree.Sorted
import Unravel.Simplify.Rule

/-!
Pruning of branches and unflattening take control flow apart. Every name that stays keeps a
declaration, unless a step drops the part that declares it: a branch that is not taken, a loop that
is never entered, or a case that is never selected (`Rule.named_or_dropped_of_run`).
-/

namespace Unravel

open SimplifyM

namespace Tree

variable {t mid after : Tree} {root id : NodeId} {copyOf : NodeId → NodeId} {hoisted : Bool}
  {name : String} {held : List NodeId}

theorem Copied.exposes (copied : t.Copied root copyOf after) (linked : t.Linked)
    (exposes : t.Exposes hoisted root name) :
    after.Exposes hoisted (copyOf root) name := by
  refine exposes.mirrored (P := fun id => t.isWithin id root = true)
    (fun isOwn member =>
      linked.isWithin_trans (linked.isWithin_of_parent (linked.mem_children.mp member)) isOwn)
    (fun isOwn => ?_) isWithin_self
  rw [copied.node _ isOwn]
  exact .of_map copyOf _

theorem Grows.exposes (grows : t.Grows mid) (linked : t.Linked) (allocated : t.Allocated id)
    (exposes : t.Exposes hoisted id name) : mid.Exposes hoisted id name :=
  exposes.congr linked isWithin_self
    fun within => grows.node (linked.allocated_of_isWithin within allocated)

theorem Assembly.exposes_copy (assembly : t.Assembly held mid) (linked : t.Linked)
    (allocated : t.Allocated root) (exposes : t.Exposes hoisted root name) :
    (Tree.copy root mid).2.Exposes hoisted (Tree.copy root mid).1 name := by
  obtain ⟨copied, isCopy⟩ := assembly.grows.linked.copied assembly.nonempty root
  have result :=
    copied.exposes assembly.grows.linked (assembly.grows.exposes linked allocated exposes)
  rw [← isCopy] at result
  exact result

theorem Assembly.exists_copy (assembly : t.Assembly held mid) (linked : t.Linked)
    {roots : List NodeId} (member : root ∈ roots) (allocated : t.Allocated root)
    (exposes : t.Exposes hoisted root name) :
    ∃ copy ∈ (roots.mapM Tree.copy mid).1, (roots.mapM Tree.copy mid).2.Exposes hoisted
      copy name := by
  have copies := assembly.forall₂_mapM roots (fun root _ _ => yields_copy_assembly root)
    (fun original copy after => original = root → after.Exposes hoisted copy name)
    (fun original _ _ _ assembly same => by
      subst same
      exact assembly.exposes_copy linked allocated exposes)
    fun linked allocated grows exposed same => grows.exposes linked allocated (exposed same)
  obtain ⟨position, bound, isRoot⟩ := List.mem_iff_getElem.mp member
  obtain ⟨same, each⟩ := List.forall₂_iff_get.mp copies
  exact ⟨_, List.get_mem _ ⟨position, same ▸ bound⟩, each position bound (same ▸ bound) isRoot⟩

theorem Assembly.exposes_block (assembly : t.Assembly held mid) (linked : t.Linked)
    {roots : List NodeId} (member : root ∈ roots) (allocated : t.Allocated root)
    (exposes : t.Exposes true root name) :
    Exposes (Tree.alloc (.block (roots.mapM Tree.copy mid).1) (roots.mapM Tree.copy mid).2).2 true
      (Tree.alloc (.block (roots.mapM Tree.copy mid).1) (roots.mapM Tree.copy mid).2).1 name := by
  obtain ⟨copy, isCopy, exposed⟩ := assembly.exists_copy linked member allocated exposes
  have made := (workshop_assembly t).mapM roots (fun item _ => yields_copy_assembly item)
    held mid assembly
  generalize (roots.mapM Tree.copy mid).1 = copies at *
  generalize (roots.mapM Tree.copy mid).2 = filled at *
  have isBlock : (Tree.alloc (.block copies) filled).2.node (Tree.alloc (.block copies) filled).1 =
      .block copies := by
    rw [node_alloc]
    exact if_pos rfl
  have held :
      copy ∈ ((Tree.alloc (.block copies) filled).2.node
        (Tree.alloc (.block copies) filled).1).children := by
    rw [isBlock]
    exact isCopy
  refine .deeper held (by rw [isBlock]; rfl) ?_
  refine exposed.congr made.grows.linked isWithin_self fun within => node_alloc_of_allocated ?_
  exact made.grows.linked.allocated_of_isWithin within
    (made.loose copy (List.mem_append_left _ isCopy)).allocated

end Tree

namespace Branch

theorem declarators_of_plan? {p : Program} {id : NodeId} {plan : Plan}
    (planned : plan? p id = some plan) :
    (p.node id).part .declarators = [] := by
  obtain ⟨_, -, ⟨_, _, shape, -⟩ | ⟨_, _, shape, -⟩ | ⟨_, shape, -⟩⟩ := of_plan? planned <;>
    rw [shape] <;> rfl

theorem step_of_remove {p after : Program} {id test : NodeId} {form : String} (c : Context)
    (planned : plan? p id = some ⟨form, test, none⟩) (done : p.remove id = .ok after) :
    ∃ c', step id ⟨p, c⟩ = .ok true ⟨after, c'⟩ := by
  have removed : SimplifyM.remove id ⟨p, c⟩ = .ok () ⟨after, c⟩ := by
    rw [SimplifyM.remove, edit, done]
    rfl
  let event : Event := ⟨.branchPruned, form ++ " (" ++ p.snippet test ++ ")", some id, none⟩
  refine ⟨{ c with journal := c.journal.record event }, ?_⟩
  have answered :
      step id ⟨p, c⟩ = (SimplifyM.remove id >>= fun _ => do log event; return true) ⟨p, c⟩ := by
    rw [step, program_bind, planned]
    rfl
  exact answered.trans (bind_of_ok _ removed)

theorem dismantles {p : Program} {id : NodeId} (steady : p.Steady)
    (attached : p.tree.isWithin id p.root = true) :
    Surely p (step id) fun _ q => q = p ∨
      ∃ plan, plan? p id = some plan ∧ p.Dismantled id plan.taken.toList q := by
  refine .program ?_
  split
  · exact .pure steady (.inl rfl)
  · rename_i plan planned
    obtain ⟨isPlain, notProgram, tested, takes, drops⟩ := parts_of_plan? planned
    have linked := steady.linked
    have rooted := steady.sound.rooted
    have free := Program.Free.of_isPlain steady isPlain
    have recorded {r : Program} (steady : r.Steady) (message : String)
      (dismantled : p.Dismantled id plan.taken.toList r) :
        Surely r (do record .branchPruned id message; return true)
          fun _ r => r = p ∨ ∃ plan, plan? p id = some plan ∧ p.Dismantled id plan.taken.toList r :=
      .bind (.record _ _ _ steady)
        fun _ _ steady _ same => .pure steady (.inr ⟨plan, planned, same ▸ dismantled⟩)
    refine .snippet fun test => ?_
    split
    · rename_i branch taken
      have held := linked.mem_children.mp (takes branch taken)
      have adds := Tree.adds_copy (W := allNodes) linked branch (Tree.allocated_of_parent? held)
      refine Surely.offer steady adds attached (steady.ne_root notProgram)
        fun offers after leads => ?_
      have loose := offers.building.loose _ (List.mem_singleton_self _)
      have grows := offers.building.grows
      refine .bind (Surely.discardReplace after (free.leads leads) loose.allocated offers.possible)
        fun _ r steadyAfter _ replaced => recorded steadyAfter _ ?_
      refine (replaced.swap rooted grows).dismantled rooted
        (replaced.loses linked rooted.isTop grows loose.new) free.notBinding ?_ ?_
      · simp only [taken, Option.toList_some, List.mem_singleton, forall_eq]
        refine ⟨linked.isWithin_of_parent held, linked.ne_of_isWithin_child held Tree.isWithin_self,
          fun holder isPart => ?_⟩
        have same := (linked.parent?_of_mem_part isPart).symm.trans held
        rw [Option.some.inj same, declarators_of_plan? planned] at isPart
        cases isPart
      · simp only [taken, Option.toList_some, List.mem_singleton, forall_eq]
        intro hoisted name owner exposes _ _
        refine ⟨_, rfl, Program.exposes_of_unwrap grows.linked ?_⟩
        exact (Tree.Assembly.start linked steady.nonempty).exposes_copy linked
          (Tree.allocated_of_parent? held) exposes
    · rename_i taken
      obtain ⟨removable, leaves⟩ := steady.removable_statement attached (drops taken)
      refine .bind (Surely.remove steady removable) fun _ r steady _ result => recorded steady _ ?_
      obtain ⟨mid, new, swap⟩ := result.1.exists_swap rooted
      have loses := result.1.loses
      rw [leaves] at swap loses
      exact swap.dismantled rooted loses free.notBinding (by simp [taken]) (by simp [taken])

end Branch

namespace FlatLoop

theorem eq_true_of_surrounding? {p : Program} {case statement owner target : NodeId}
    {hoisted : Bool} (linked : p.tree.Linked)
    {switch : NodeId} {discriminant : NodeId} {cases : List NodeId}
    (shape : p.node switch = .switch discriminant cases) (isCase : case ∈ cases)
    (held : p.tree.parent? statement = some case) (within : p.tree.isWithin switch target = true)
    (found : p.tree.surrounding? hoisted statement = some owner)
    (outside : p.tree.isWithin owner target = false) :
    hoisted = true := by
  have caseHeld : p.tree.parent? case = some switch := by
    rw [← linked.mem_children, show p.tree.node switch = _ from shape]
    exact List.mem_cons_of_mem _ isCase
  have notInside {inner : NodeId} (isOwner : p.tree.surrounding? hoisted statement = some inner)
      (inside : p.tree.isWithin inner switch = true) : False := by
    rw [found, Option.some.injEq] at isOwner
    rw [isOwner, linked.isWithin_trans inside within] at outside
    cases outside
  by_contra isLexical
  have opens : p.tree.scopeKind? switch = some .block := by
    rw [Tree.scopeKind?, show p.tree.node switch = _ from shape]
  have isSwitch := linked.surrounding?_of_opens hoisted caseHeld opens
    fun isHoisted => absurd isHoisted isLexical
  rcases linked.surrounding?_of_parent hoisted held with further | isCase
  · exact notInside (further.trans isSwitch) Tree.isWithin_self
  · exact notInside isCase (linked.isWithin_of_parent caseHeld)

theorem dismantles {p : Program} {loop : NodeId} (steady : p.Steady)
    (attached : p.tree.isWithin loop p.root = true) :
    Surely p (step loop) fun _ q => q = p ∨
      ∃ plan, plan? p loop = some plan ∧ p.Dismantled loop plan.1 q := by
  refine .program ?_
  split
  · exact .pure steady (.inl rfl)
  · rename_i statements count planned
    obtain ⟨test, body, shape, inside⟩ := isWithin_of_plan? steady.linked planned
    have linked := steady.linked
    have rooted := steady.sound.rooted
    obtain ⟨_, _, switch, _, _, cases, loopShape, bodyShape, switchShape, taken⟩ :=
      shape_of_plan? linked planned
    rw [show p.node loop = .while_ test body from shape] at loopShape
    cases loopShape
    have held : p.tree.parent? body = some loop := by
      rw [← linked.mem_children, shape]
      simp [Node.children]
    have switchWithin : p.tree.isWithin switch loop = true := by
      refine linked.isWithin_trans (linked.isWithin_of_parent ?_) (linked.isWithin_of_parent held)
      rw [← linked.mem_children, show p.tree.node body = _ from bodyShape]
      exact List.mem_cons_self ..
    have allocated : ∀ statement ∈ statements, p.tree.Allocated statement := fun statement member =>
      linked.allocated_of_isWithin (inside statement member) (Tree.allocated_of_parent? held)
    have free : p.Free loop := .of_isPlain steady (by rw [show p.node loop = _ from shape]; rfl)
    have adds : p.tree.Adds allNodes [] Tree.piece
        (do Tree.alloc (.block (← statements.mapM Tree.copy)))
          (1 + (statements.map (p.tree.weight allNodes)).sum) :=
      .bind (.mapM statements
        fun statement member => Tree.adds_copy linked statement (allocated statement member))
        fun body => Tree.adds_alloc (.block body) (by simp [Node.part]) fun sum => le_rfl
    refine Surely.offer steady adds attached (steady.ne_root fun body same => ?_)
      fun offers after leads => ?_
    · rw [show p.node loop = .while_ test _ from shape] at same
      cases same
    have loose := offers.building.loose _ (List.mem_singleton_self _)
    have grows := offers.building.grows
    refine .bind (Surely.replace after (free.leads leads) loose.allocated offers.possible)
      fun placed r steadyAfter _ replaced => ?_
    refine .bind (.record _ _ _ steadyAfter)
      fun _ q steadyAfter _ same => .pure steadyAfter (.inr ⟨_, planned, ?_⟩)
    subst same
    refine (replaced.swap rooted grows).dismantled rooted
      (replaced.loses linked rooted.isTop grows loose.new) free.notBinding ?_ ?_
    · intro statement member
      obtain ⟨case, -, isHeld, ends⟩ := taken statement member
      refine ⟨linked.isWithin_trans (inside statement member) (linked.isWithin_of_parent held),
        linked.ne_of_isWithin_child held (inside statement member), fun holder isPart => ?_⟩
      have same :=
        (linked.parent?_of_mem_part isPart).symm.trans
          (linked.mem_children.mp (ends.mem_children isHeld))
      obtain ⟨_, _, caseShape, -⟩ := ends
      rw [Option.some.inj same, caseShape] at isPart
      cases isPart
    · intro statement member hoisted name owner exposes found outside
      obtain ⟨case, isCase, isHeld, ends⟩ := taken statement member
      have isHoisted := eq_true_of_surrounding? linked switchShape isCase
        (linked.mem_children.mp (ends.mem_children isHeld)) switchWithin found outside
      subst isHoisted
      refine ⟨_, rfl, Program.exposes_of_unwrap grows.linked ?_⟩
      have start := Tree.Assembly.start linked steady.nonempty
      exact start.exposes_block linked member (allocated statement member) exposes

end FlatLoop

/-! ### Runs -/

/-- The rules that take control flow apart. -/
inductive Dismantling where
  | branches | loops

namespace Dismantling

variable {p : Program} {c : Context} {w : Workspace} {changed : Bool} {id : NodeId}
  {ids : List NodeId} {d : Declaration}
  {binding : BindingId}

def rule : Dismantling → Rule
  | branches => .branchPruning
  | loops => .switchUnflattening

/-- The nodes that a run comes to. -/
def candidates (p : Program) : Dismantling → List NodeId
  | branches => p.nodes.filter fun id => Branch.isCandidate (p.node id)
  | loops => p.nodes.filter fun id => FlatLoop.isLoop (p.node id)

def step (id : NodeId) : Dismantling → SimplifyM Bool
  | branches => Branch.step id
  | loops => FlatLoop.step id

/-- What is kept of a node that is taken apart: the branch that is taken, or the selected cases. -/
def kept? (p : Program) (id : NodeId) : Dismantling → Option (List NodeId)
  | branches => (Branch.plan? p id).map fun plan => plan.taken.toList
  | loops => (FlatLoop.plan? p id).map fun plan => plan.1

/-- Makes a step at each of several nodes that is still in the program. -/
def sweep (ids : List NodeId) (r : Dismantling) :
    SimplifyM Bool := anyChange ids fun id => ifAttached id (r.step id)

variable (r : Dismantling)

theorem run_eq (w : Workspace) :
    r.rule.run w = r.sweep (r.candidates w.program) w := by cases r <;> rfl

/-- A declaration is in a part of a node that is dropped when the node is taken apart. -/
def Drops (p : Program) (target declaration : NodeId) : Prop :=
  ∃ kept, r.kept? p target = some kept ∧ p.tree.isWithin declaration target = true ∧
    ∀ part ∈ kept, p.tree.isWithin declaration part = false

theorem dismantles (steady : p.Steady) (attached : p.tree.isWithin id p.root = true) :
    Surely p (r.step id)
      fun _ q => q = p ∨ ∃ kept, r.kept? p id = some kept ∧ p.Dismantled id kept q := by
  cases r with
  | branches =>
    refine .mono (Branch.dismantles steady attached) fun _ q result => result.imp_right ?_
    rintro ⟨plan, planned, dismantled⟩
    exact ⟨_, by rw [kept?, planned, Option.map_some], dismantled⟩
  | loops =>
    refine .mono (FlatLoop.dismantles steady attached) fun _ q result => result.imp_right ?_
    rintro ⟨plan, planned, dismantled⟩
    exact ⟨_, by rw [kept?, planned, Option.map_some], dismantled⟩

theorem of_ifAttached (steady : p.Steady) (ran : ifAttached id (r.step id) ⟨p, c⟩ = .ok changed w) :
    w.program.Steady ∧ p.Leads w.program ∧ (w.program = p ∨
      ∃ kept, r.kept? p id = some kept ∧ p.Dismantled id kept w.program) := by
  change (if p.isAttached id then r.step id else pure false) ⟨p, c⟩ = _ at ran
  split at ran
  · rename_i attached
    rw [Program.isAttached_eq steady.linked steady.isTop.top] at attached
    have result := r.dismantles steady attached c
    rw [ran] at result
    exact result
  · obtain ⟨-, rfl⟩ := EStateM.Result.ok.inj ran
    exact ⟨steady, .refl p, .inl rfl⟩

theorem leads_of_sweep (steady : p.Steady) (ran : r.sweep ids ⟨p, c⟩ = .ok changed w) :
    w.program.Steady ∧ p.Leads w.program := by
  induction ids generalizing p c changed with
  | nil =>
    obtain ⟨-, rfl⟩ := EStateM.Result.ok.inj ran
    exact ⟨steady, .refl p⟩
  | cons head rest induction =>
    rw [sweep, anyChange_cons] at ran
    obtain ⟨_, mid, _, stepped, further, -⟩ := exists_of_or ran
    obtain ⟨steadyMid, before, -⟩ := r.of_ifAttached steady stepped
    obtain ⟨steadyAfter, after⟩ := induction steadyMid further
    exact ⟨steadyAfter, before.trans after⟩

theorem attached_of_sweep (steady : p.Steady) (ran : r.sweep ids ⟨p, c⟩ = .ok changed w)
    (allocated : p.tree.Allocated id) (still : w.program.tree.isWithin id w.program.root = true) :
    p.tree.isWithin id p.root = true := by
  induction ids generalizing p c changed with
  | nil =>
    obtain ⟨-, rfl⟩ := EStateM.Result.ok.inj ran
    exact still
  | cons head rest induction =>
    rw [sweep, anyChange_cons] at ran
    obtain ⟨_, mid, _, stepped, further, -⟩ := exists_of_or ran
    obtain ⟨steadyMid, leads, result⟩ := r.of_ifAttached steady stepped
    have between := induction steadyMid further (leads.allocated allocated)
    rcases result with same | ⟨kept, -, dismantled⟩
    · exact same ▸ between
    · exact (dismantled.loses.lost allocated between).1

/--
A name that is left by a sweep keeps a declaration, unless a step drops the one that it has then. -/
theorem named_or_dropped (steady : p.Steady) (ran : r.sweep ids ⟨p, c⟩ = .ok changed w)
    (attached : p.tree.isWithin id p.root = true)
    (still : w.program.tree.isWithin id w.program.root = true)
    (means : p.lexicon.meaning? id = some d) :
    (∃ e, w.program.lexicon.meaning? id = some e ∧ e.name = d.name) ∨
      ∃ before target behind, ids = before ++ target :: behind ∧ ∃ first mid,
        r.sweep before ⟨p, c⟩ = .ok first mid ∧ mid.program.Steady ∧
          ∃ e, mid.program.lexicon.meaning? id = some e ∧ e.name = d.name ∧
            r.Drops mid.program target e.declaration := by
  induction ids generalizing p c changed d with
  | nil =>
    obtain ⟨-, rfl⟩ := EStateM.Result.ok.inj ran
    exact .inl ⟨d, means, rfl⟩
  | cons head rest induction =>
    rw [sweep, anyChange_cons] at ran
    obtain ⟨x, mid, _, stepped, further, -⟩ := exists_of_or ran
    obtain ⟨steadyMid, leads, result⟩ := r.of_ifAttached steady stepped
    have allocated := steady.linked.allocated_of_isWithin attached steady.isTop.allocated
    have between := r.attached_of_sweep steadyMid further (leads.allocated allocated) still
    have later {e : Declaration} (isMeaning : mid.program.lexicon.meaning? id = some e)
        (named : e.name = d.name) :
        (∃ e, w.program.lexicon.meaning? id = some e ∧ e.name = d.name) ∨
          ∃ before target behind, head :: rest = before ++ target :: behind ∧ ∃ first mid,
            r.sweep before ⟨p, c⟩ = .ok first mid ∧ mid.program.Steady ∧
              ∃ e, mid.program.lexicon.meaning? id = some e ∧ e.name = d.name ∧
                r.Drops mid.program target e.declaration := by
      refine (induction steadyMid further between isMeaning).imp ?_ ?_
      · rintro ⟨last, means, same⟩
        exact ⟨last, means, same.trans named⟩
      · rintro ⟨before, target, behind, rfl, first, stage, swept, steadyStage, last,
          means, same, drops⟩
        refine ⟨head :: before, target, behind, rfl, x || first, stage, ?_,
          steadyStage, last, means, same.trans named, drops⟩
        rw [sweep, anyChange_cons]
        exact (bind_of_ok _ stepped).trans (bind_of_ok _ swept)
    rcases result with same | ⟨kept, isKept, dismantled⟩
    · exact later (by rw [same]; exact means) rfl
    · rcases dismantled.named_or_dropped steady.sound.rooted attached between means with
        ⟨e, isMeaning, named⟩ | dropped
      · exact later isMeaning named
      · exact .inr ⟨[], head, rest, rfl, false, ⟨p, c⟩, rfl, steady, d, means, rfl, kept,
          isKept, dropped⟩

/-- Every name that is in the program before and after a run and that is bound before it is bound to
a declaration of the same name after it, unless a step of the run drops the declaration that the
name has then: the step takes a choice, a loop or a dispatching loop apart, and the declaration is
in it but in none of the parts that are kept. -/
theorem named_or_dropped_of_run (reached : p.Reached) (verified : p.verify = .ok ())
    (wellBound : p.tree.WellBound) (ran : r.rule.run ⟨p, c⟩ = .ok changed w)
    (attached : p.isAttached id = true) (still : w.program.isAttached id = true)
    (belongs : p.bindingOf? id = some binding) :
    (∃ other, w.program.bindingOf? id = some other ∧
      (w.program.binding other).name = (p.binding binding).name) ∨
      ∃ before target behind, r.candidates p = before ++ target :: behind ∧ ∃ first mid,
        r.sweep before ⟨p, c⟩ = .ok first mid ∧ ∃ other, mid.program.bindingOf? id = some other ∧
          (mid.program.binding other).name = (p.binding binding).name ∧
            r.Drops mid.program target (mid.program.binding other).declaration := by
  have steady : p.Steady := ⟨reached.sound verified, wellBound⟩
  rw [run_eq] at ran
  obtain ⟨steadyAfter, leads⟩ := r.leads_of_sweep steady ran
  rw [Program.isAttached_eq steady.linked steady.isTop.top] at attached
  rw [Program.isAttached_eq steadyAfter.linked steadyAfter.isTop.top] at still
  obtain ⟨d, means, stands⟩ := steady.sound.exists_of_bindingOf? belongs
  rcases r.named_or_dropped steady ran attached still means with ⟨e, meansAfter, named⟩ | dropped
  · obtain ⟨other, isBinding, standsAfter⟩ := steadyAfter.sound.exists_of_meaning? meansAfter
    exact .inl ⟨other, isBinding, standsAfter.name.trans (named.trans stands.name.symm)⟩
  · obtain ⟨before, target, behind, split, first, mid, swept, steadyMid, e, meansThen, named,
      drops⟩ := dropped
    obtain ⟨other, isBinding, standsThen⟩ := steadyMid.sound.exists_of_meaning? meansThen
    exact .inr ⟨before, target, behind, split, first, mid, swept, other, isBinding,
      standsThen.name.trans (named.trans stands.name.symm), standsThen.declaration.symm ▸ drops⟩

theorem run_of_single (single : r.candidates p = [id]) (attached : p.isAttached id = true)
    (stepped : r.step id ⟨p, c⟩ = .ok changed w) : r.rule.run ⟨p, c⟩ = .ok changed w := by
  have atNode : ifAttached id (r.step id) ⟨p, c⟩ = .ok changed w := by
    change (if p.isAttached id then r.step id else pure false) ⟨p, c⟩ = _
    rw [if_pos attached, stepped]
  rw [run_eq, single, sweep, anyChange_cons, bind_of_ok _ atNode]
  exact congrArg (EStateM.Result.ok · w) (Bool.or_false changed)

end Dismantling

/-! ### An instance -/

/-- The tree of `if (true) { var x; } x;`, or with `false` for `true`. -/
def guardedVariable (truth : Bool) : Tree :=
  ⟨#[⟨.literal (.boolean truth), some ⟨5⟩⟩, ⟨.identifier "x", some ⟨2⟩⟩,
    ⟨.variableDeclarator ⟨1⟩ none, some ⟨3⟩⟩, ⟨.variableDeclaration .var [⟨2⟩], some ⟨4⟩⟩,
    ⟨.block [⟨3⟩], some ⟨5⟩⟩, ⟨.if_ ⟨0⟩ ⟨4⟩ none, some ⟨8⟩⟩, ⟨.identifier "x", some ⟨7⟩⟩,
    ⟨.expressionStatement ⟨6⟩, some ⟨8⟩⟩, ⟨.program [⟨5⟩, ⟨7⟩], none⟩]⟩

theorem exists_guardedVariable (truth : Bool) :
    ∃ p binding, Program.ofTree (guardedVariable truth) ⟨8⟩ = .ok p ∧
      p.tree = guardedVariable truth ∧ p.root = ⟨8⟩ ∧ p.Steady ∧ p.Reached ∧
        p.bindingOf? ⟨6⟩ = some binding ∧
          (∀ id ∈ [⟨5⟩, ⟨6⟩], p.tree.isWithin id p.root = true ∧ p.isAttached id = true) ∧
            Dismantling.branches.candidates p = [⟨5⟩] := by
  have linked : (guardedVariable truth).Linked := Tree.linked_of_checks (by cases truth <;> decide)
  have isTop : (guardedVariable truth).IsTop ⟨8⟩ :=
    ⟨by cases truth <;> decide, by cases truth <;> decide⟩
  obtain ⟨scopes, made, steady⟩ := Program.exists_steady (guardedVariable truth) ⟨8⟩ linked isTop
    (Tree.wellBound_of_bindsWell (by cases truth <;> decide)) rfl
  have means : ((guardedVariable truth).lexicon ⟨8⟩).meaning? ⟨6⟩ =
      some ⟨⟨8⟩, "x", .var, ⟨2⟩, ⟨1⟩⟩ := by
    cases truth <;> decide
  obtain ⟨binding, belongs, -⟩ := steady.sound.exists_of_meaning? means
  have within : ∀ id ∈ [⟨5⟩, ⟨6⟩], (guardedVariable truth).isWithin id ⟨8⟩ = true := by
    cases truth <;> decide
  refine ⟨_, binding, made, rfl, rfl, steady, .made linked isTop made, belongs,
    fun id member => ⟨within id member, ?_⟩, by cases truth <;> rfl⟩
  rw [Program.isAttached_eq linked isTop.top, within id member]

/-- The branch that is taken declares the variable again. -/
theorem Dismantling.exists_named_or_dropped_of_run : ∃ p binding changed w,
    Program.ofTree (guardedVariable true) ⟨8⟩ = .ok p ∧
    branches.rule.run ⟨p, default⟩ = .ok changed w ∧
      w.program.isAttached ⟨6⟩ = true ∧ p.bindingOf? ⟨6⟩ = some binding ∧
        ((∃ other, w.program.bindingOf? ⟨6⟩ = some other ∧
            (w.program.binding other).name = (p.binding binding).name) ∨
          ∃ before target behind, branches.candidates p = before ++ target :: behind ∧ ∃ first mid,
            branches.sweep before ⟨p, default⟩ = .ok first mid ∧
            ∃ other, mid.program.bindingOf? ⟨6⟩ = some other ∧
              (mid.program.binding other).name = (p.binding binding).name ∧
                branches.Drops mid.program target (mid.program.binding other).declaration) := by
  obtain ⟨p, binding, made, isTree, isRoot, steady, reached, belongs, there, single⟩ :=
    exists_guardedVariable true
  obtain ⟨within, attached⟩ := there ⟨5⟩ (by decide)
  obtain ⟨withinUse, attachedUse⟩ := there ⟨6⟩ (by decide)
  have outside : p.tree.isWithin ⟨6⟩ ⟨5⟩ = false := by
    rw [isTree]
    decide
  obtain ⟨changed, w, stepped, steadyAfter, -, result⟩ :=
    (branches.dismantles steady within).exists_ok default
  have ran := branches.run_of_single single attached stepped
  have still : w.program.isAttached ⟨6⟩ = true := by
    rw [Program.isAttached_eq steadyAfter.linked steadyAfter.isTop.top]
    rcases result with same | ⟨kept, -, dismantled⟩
    · rw [same, withinUse]
    · exact (dismantled.loses.kept withinUse outside).1
  exact ⟨p, binding, changed, w, made, ran, still, belongs, named_or_dropped_of_run branches reached
    steady.sound.verify steady.wellBound ran attachedUse still belongs⟩

/-- What a branch that is not taken declares is not declared after the run. -/
theorem Dismantling.exists_not_named_of_run : ∃ p binding w,
    Program.ofTree (guardedVariable false) ⟨8⟩ = .ok p ∧ p.verify = .ok () ∧
      branches.rule.run ⟨p, default⟩ = .ok true w ∧ p.isAttached ⟨6⟩ = true ∧
        w.program.isAttached ⟨6⟩ = true ∧
          p.bindingOf? ⟨6⟩ = some binding ∧ w.program.bindingOf? ⟨6⟩ = none := by
  obtain ⟨p, binding, made, isTree, isRoot, steady, reached, belongs, there, single⟩ :=
    exists_guardedVariable false
  obtain ⟨within, attached⟩ := there ⟨5⟩ (by decide)
  obtain ⟨withinUse, attachedUse⟩ := there ⟨6⟩ (by decide)
  have shape : p.node ⟨5⟩ = .if_ ⟨0⟩ ⟨4⟩ none := by
    rw [Program.node, isTree]
    rfl
  have planned : Branch.plan? p ⟨5⟩ = some ⟨"if", ⟨0⟩, none⟩ := by
    have known : p.evaluate? ⟨0⟩ = some (.bool false) := by
      rw [Program.evaluate?, Program.evaluateWithin, Program.node, isTree]
      rfl
    rw [Branch.plan?, shape]
    simp [known, Value.toBool]
  obtain ⟨removable, leaves⟩ := steady.removable_statement within (by rw [shape]; rfl)
  obtain ⟨after, done, taken⟩ := removable.exists_taken steady
  obtain ⟨c, stepped⟩ := Branch.step_of_remove default planned done
  have steadyAfter := (steady.remove done).1
  have isTreeAfter : some after.tree = (guardedVariable false).detach? ⟨5⟩ := by
    have place : p.tree.slot? (p.leaving ⟨5⟩) = some (⟨8⟩, .list 0) := by
      rw [leaves, isTree]
      rfl
    rw [← Program.tree_of_remove place done, leaves, isTree]
  have isRootAfter : after.root = ⟨8⟩ := taken.removed.root.trans isRoot
  have unbound : after.bindingOf? ⟨6⟩ = none := by
    rw [steadyAfter.sound.bindingOf?_eq_none_iff, Program.lexicon, isRootAfter,
      Option.some.inj isTreeAfter]
    decide
  have still : after.isAttached ⟨6⟩ = true := by
    rw [Program.isAttached_eq steadyAfter.linked steadyAfter.isTop.top]
    refine (taken.loses.kept withinUse ?_).1
    rw [leaves, isTree]
    decide
  exact ⟨p, binding, _, made, steady.sound.verify, branches.run_of_single single attached stepped,
    attachedUse, still, belongs, unbound⟩

end Unravel
