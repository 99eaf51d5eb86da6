import Unravel.Proofs.Eval.Confined
import Unravel.Proofs.Flow.Path
import Unravel.Proofs.Program.Orderly

/-!
A name is certain to have the value of its initializer where its declaration stands before it and is
not below a branch or loop. On every path into the scope of the name the declaration has then been
completed before the name is read (`Program.Reached.declared_first`).
-/

namespace Unravel

theorem Node.isStatement_of_isVariableDeclaration {α : Type} {n : Node α}
    (isDeclaration : n.isVariableDeclaration = true) :
    n.isStatement = true := by
  cases n <;> simp_all [isVariableDeclaration, isStatement]

theorem Node.notCase_of_isPart {α : Type} {n : Node α}
    (isPart : n.isDeclarator = true ∨ n.isStatement = true) :
    n.isOperand = false ∧ n.isCase = false := by
  cases n <;> simp_all [isOperand, isStatement, isCase, isDeclarator]

theorem Node.isVariableDeclaration_or_isBlock_of_admits {n : Node NodeId} {m : Node NodeId}
    (admitted : n.admits m = true) (isPart : m.isDeclarator = true ∨ m.isStatement = true)
    (notFunction : n.isFunction = false) (unconditional : Scopes.isConditional n = false)
    (notProgram : n.isProgram = false) :
    n.isVariableDeclaration = true ∨ ∃ body, n = .block body := by
  have notCase := notCase_of_isPart isPart
  have holds : n.holdsStatements = true ∨ n.isVariableDeclaration = true := by
    simp only [admits, notCase.1, notCase.2, Bool.false_and, Bool.or_false, Bool.false_or,
      Bool.or_eq_true, Bool.and_eq_true] at admitted
    exact admitted.imp And.right And.right
  clear admitted isPart notCase
  cases n <;> simp_all [isProgram, holdsStatements, isVariableDeclaration, isFunction, function?,
    Scopes.isConditional]

namespace Tree

variable {t : Tree} {id outer first second fork branch : NodeId} {code : Code}
  {done further : List NodeId} {leaving : Leaving}

/-! ### One node before another -/

/-- On a path a node is completed only when another one has been. -/
def OnlyAfter (first second : NodeId) (done : List NodeId) : Prop :=
  ∀ before after, done = before ++ second :: after → first ∈ before

namespace OnlyAfter

theorem of_notMem (missing : second ∉ done) : OnlyAfter first second done := by
  rintro before after rfl
  simp at missing

theorem append (start : OnlyAfter first second done) (rest : OnlyAfter first second further) :
    OnlyAfter first second (done ++ further) := by
  intro before after same
  rcases List.append_eq_append_iff.mp same with ⟨between, rfl, split⟩ | ⟨between, split, others⟩
  · exact List.mem_append_right _ (rest between after split)
  · cases between with
    | nil => exact absurd (rest [] after others.symm) (List.not_mem_nil)
    | cons head between =>
      obtain ⟨rfl, -⟩ := List.cons.inj others
      exact start before between split

theorem of_mem (member : first ∈ done) (missing : second ∉ done) :
    OnlyAfter first second (done ++ further) := by
  intro before after same
  rcases List.append_eq_append_iff.mp same with ⟨between, rfl, -⟩ | ⟨between, rfl, others⟩
  · exact List.mem_append_left _ member
  · cases between with
    | nil => simpa using member
    | cons head between =>
      obtain ⟨rfl, -⟩ := List.cons.inj others
      simp at missing

end OnlyAfter

structure Fork (t : Tree) (fork first second : NodeId) where
  front : List NodeId
  back : List NodeId
  earlier : NodeId
  later : NodeId
  children : (t.node fork).children = front ++ back
  inFront : earlier ∈ front
  inBack : later ∈ back
  isEarlier : t.isWithin first earlier = true
  isLater : t.isWithin second later = true

theorem getElem?_of_idxOf? {l : List NodeId} {i : Nat} (found : l.idxOf? id = some i) :
    l[i]? = some id := by
  obtain ⟨inside, same, -⟩ := List.findIdx?_eq_some_iff_getElem.mp found
  rw [List.getElem?_eq_getElem inside, eq_of_beq same]

theorem exists_of_forksBefore {firstPath secondPath : List NodeId}
    (forks : t.forksBefore outer firstPath secondPath = true) :
    ∃ fork front back, ∃ earlier ∈ firstPath,
      ∃ later ∈ secondPath, (t.node fork).children = front ++ back ∧ earlier ∈ front ∧
        later ∈ back := by
  induction firstPath generalizing outer secondPath with
  | nil => cases forks
  | cons a firstPath induction =>
    cases secondPath with
    | nil => cases forks
    | cons b secondPath =>
      rw [forksBefore] at forks
      split at forks
      · obtain ⟨fork, front, back, earlier, isFirst, later, isSecond, holds⟩ := induction forks
        exact ⟨fork, front, back, earlier, List.mem_cons_of_mem _ isFirst, later,
          List.mem_cons_of_mem _ isSecond, holds⟩
      · split at forks
        · rename_i i j isFirst isSecond
          refine ⟨outer, (t.node outer).children.take (i + 1), (t.node outer).children.drop (i + 1),
            a, List.mem_cons_self .., b, List.mem_cons_self .., (List.take_append_drop _ _).symm,
            ?_, ?_⟩
          · exact List.mem_iff_getElem?.mpr ⟨i, by
              rw [List.getElem?_take_of_lt (Nat.lt_succ_self i), getElem?_of_idxOf? isFirst]⟩
          · refine List.mem_iff_getElem?.mpr ⟨j - (i + 1), ?_⟩
            rw [List.getElem?_drop, ← getElem?_of_idxOf? isSecond]
            congr 1
            have less := of_decide_eq_true forks
            omega
        · cases forks

theorem exists_fork (precedes : t.precedes first second = true) :
    ∃ fork, Nonempty (t.Fork fork first second) := by
  rw [Tree.precedes, Bool.and_eq_true] at precedes
  have ofPath {id part : NodeId} (member : part ∈ t.path id) : t.isWithin id part = true := by
    rw [Tree.path, List.mem_append, List.mem_reverse, List.mem_singleton] at member
    exact isWithin_iff.mpr (member.symm.imp_left Eq.symm)
  have forked := precedes.2
  split at forked
  · rename_i top firstPath other secondPath isFirst isSecond
    rw [Bool.and_eq_true] at forked
    obtain ⟨fork, front, back, earlier, onFirst, later, onSecond, children, inFront, inBack⟩ :=
      exists_of_forksBefore forked.2
    exact ⟨fork, ⟨front, back, earlier, later, children, inFront, inBack,
      ofPath (isFirst ▸ List.mem_cons_of_mem _ onFirst),
      ofPath (isSecond ▸ List.mem_cons_of_mem _ onSecond)⟩⟩
  · cases forked

theorem mem_nodes_entry (t : Tree) {part : NodeId} (isPart : part ∈ (t.entry id).nodes) :
    part = id ∨ part ∈ (t.node id).children := by
  unfold entry at isPart
  split at isPart
  · rename_i shape
    rw [Code.nodes_list] at isPart
    simp only [shape, Node.children, List.mem_append] at isPart ⊢
    tauto
  · exact .inl (List.mem_singleton.mp isPart)

namespace Fork

variable (forks : t.Fork fork first second) (linked : t.Linked)

include forks linked

theorem earlier_held : t.parent? forks.earlier = some fork := by
  rw [← linked.mem_children, forks.children]
  exact List.mem_append_left _ forks.inFront

theorem later_held : t.parent? forks.later = some fork := by
  rw [← linked.mem_children, forks.children]
  exact List.mem_append_right _ forks.inBack

theorem isWithin_first : t.isWithin first fork = true :=
  linked.isWithin_trans forks.isEarlier (linked.isWithin_of_parent (forks.earlier_held linked))

theorem isWithin_second : t.isWithin second fork = true :=
  linked.isWithin_trans forks.isLater (linked.isWithin_of_parent (forks.later_held linked))

theorem first_ne :
    first ≠ fork := linked.ne_of_isWithin_child (forks.earlier_held linked) forks.isEarlier

theorem second_ne :
    second ≠ fork := linked.ne_of_isWithin_child (forks.later_held linked) forks.isLater

theorem not_isWithin_of_mem_front (member : id ∈ forks.front) : t.isWithin second id = false := by
  rw [Bool.eq_false_iff]
  intro within
  have held : t.parent? id = some fork := by
    rw [← linked.mem_children, forks.children]
    exact List.mem_append_left _ member
  have same := linked.eq_of_isWithin_children held (forks.later_held linked) within forks.isLater
  have distinct := linked.nodup_children fork
  rw [forks.children, List.nodup_append] at distinct
  exact distinct.2.2 id member forks.later forks.inBack same

theorem isWithin_of_common (firstWithin : t.isWithin first outer = true)
    (secondWithin : t.isWithin second outer = true) :
    t.isWithin fork outer = true := by
  rcases linked.isWithin_linear (forks.isWithin_first linked) firstWithin with within | within
  · exact within
  · by_cases same : outer = fork
    · rw [same]
      exact isWithin_self
    · obtain ⟨child, isChild, below⟩ := linked.exists_child within same
      have held := linked.mem_children.mp isChild
      have isEarlier := linked.eq_of_isWithin_children held (forks.earlier_held linked)
        (linked.isWithin_trans firstWithin below) forks.isEarlier
      have isLater := linked.isWithin_trans secondWithin below
      rw [isEarlier, forks.not_isWithin_of_mem_front linked forks.inFront] at isLater
      cases isLater

/-- The children in front are run without the second node. -/
theorem notMem_of_front {front : List NodeId} (inFront : ∀ id ∈ front, id ∈ forks.front)
    (path : t.Path (.list front) done leaving) : second ∉ done := by
  intro completed
  obtain ⟨part, member, within⟩ := path.exists_part linked completed
  rw [Code.nodes_list] at member
  rw [forks.not_isWithin_of_mem_front linked (inFront part member)] at within
  cases within

end Fork

/-! ### Declarations that are always completed -/

inductive Straight (t : Tree) (first : NodeId) : NodeId → Prop
  | here : Straight t first first
  | inside {id child : NodeId} (all : t.codes id = [.list (t.node id).children])
      (member : child ∈ (t.node id).children) (straight : Straight t first child) :
      Straight t first id

theorem Straight.mem (straight : t.Straight first id) (path : t.Path (.node id) done .normally) :
    first ∈ done := by
  induction straight generalizing done with
  | here => exact path.mem_of_normally
  | inside all member _ induction =>
    cases path with
    | node isWay path =>
      rw [all, List.mem_singleton] at isWay
      subst isWay
      obtain ⟨part, completed, subset⟩ := path.exists_of_mem member
      exact List.mem_append_left _ (subset (induction completed))

theorem Linked.eq_of_between (linked : t.Linked) (held : t.parent? id = some outer)
    (within : t.isWithin id fork = true) (around : t.isWithin fork outer = true)
    (different : fork ≠ outer) : id = fork := by
  obtain ⟨child, isChild, below⟩ := linked.exists_child around different
  have same := linked.eq_of_isWithin_children held (linked.mem_children.mp isChild) isWithin_self
    (linked.isWithin_trans within below)
  exact linked.isWithin_antisymm within (same ▸ below)

theorem Path.onlyAfter (path : t.Path code done leaving) (linked : t.Linked)
    (notCase : (t.node fork).isCase = false) (inside : t.isWithin second fork = true)
    (different : second ≠ fork)
    (atFork : ∀ {code done leaving}, code ∈ t.codes fork → t.Path code done leaving →
      OnlyAfter first second done)
    (whole : ∀ part ∈ code.nodes, t.isWithin part fork = true → part = fork) :
    OnlyAfter first second done := by
  induction path with
  | cut => exact .of_notMem List.not_mem_nil
  | leave => exact .of_notMem List.not_mem_nil
  | @node id code done leaving isWay path induction =>
    by_cases isFork : id = fork
    · subst isFork
      refine (atFork isWay path).append (.of_notMem fun member => ?_)
      split at member
      · exact different (List.mem_singleton.mp member)
      · cases member
    · have outside : t.isWithin id fork = false := by
        rw [Bool.eq_false_iff]
        exact fun within => isFork (whole id (List.mem_singleton_self _) within)
      cases around : t.isWithin fork id with
      | false =>
        -- The node and the fork have nothing in common.
        refine .of_notMem fun completed => ?_
        obtain ⟨part, member, within⟩ := (Path.node isWay path).exists_part linked completed
        rw [List.mem_singleton.mp member] at within
        rcases linked.isWithin_linear within inside with within | within
        · rw [outside] at within
          cases within
        · rw [around] at within
          cases within
      | true =>
        have parts : ∀ part ∈ code.nodes, t.isWithin part fork = true → part = fork := by
          intro part member within
          obtain ⟨child, isChild, below⟩ := linked.exists_child around (Ne.symm isFork)
          rcases of_mem_codes isWay member with held | ⟨case, caseHeld, isCase, held⟩
          · exact linked.eq_of_between (linked.mem_children.mp held) within around (Ne.symm isFork)
          · have same := linked.eq_of_isWithin_children (linked.mem_children.mp isChild)
              (linked.mem_children.mp caseHeld)
              (linked.isWithin_trans within below)
              (linked.isWithin_of_parent (linked.mem_children.mp held))
            subst same
            refine linked.eq_of_between (linked.mem_children.mp held) within below ?_
            rintro rfl
            rw [notCase] at isCase
            cases isCase
        refine (induction parts).append (.of_notMem fun member => ?_)
        split at member
        · rw [List.mem_singleton.mp member, outside] at inside
          cases inside
        · cases member
  | seq _ _ before after =>
    exact (before fun part member => whole part (List.mem_append_left _ member)).append
      (after fun part member => whole part (List.mem_append_right _ member))
  | left _ _ before => exact before fun part member => whole part (List.mem_append_left _ member)
  | catching _ induction => exact induction whole
  | tested _ induction =>
    refine induction fun part member => whole part (List.mem_append_left _ ?_)
    rwa [Code.nodes_list] at member
  | round _ induction =>
    refine induction fun part member => whole part ?_
    simp only [Code.nodes, Code.round, Code.nodes_list, List.mem_append, List.mem_cons,
      List.not_mem_nil, or_false] at member ⊢
    tauto

theorem Fork.onlyAfter_of_list (forks : t.Fork fork first second) (linked : t.Linked)
    {front back : List NodeId} (inFront : ∀ id ∈ front, id ∈ forks.front)
    (isEarlier : forks.earlier ∈ front) (straight : t.Straight first forks.earlier)
    (path : t.Path (.list (front ++ back)) done leaving) :
    OnlyAfter first second done := by
  rcases path.split with ⟨start, rest, rfl, whole, -⟩ | ⟨part, -⟩
  · obtain ⟨part, completed, subset⟩ := whole.exists_of_mem isEarlier
    exact .of_mem (subset (straight.mem completed)) (forks.notMem_of_front linked inFront whole)
  · exact .of_notMem (forks.notMem_of_front linked inFront part)

theorem Fork.onlyAfter_of_seq (forks : t.Fork fork first second) (linked : t.Linked)
    {front : List NodeId} (inFront : ∀ id ∈ front, id ∈ forks.front)
    (isEarlier : forks.earlier ∈ front) (straight : t.Straight first forks.earlier)
    (path : t.Path (.seq (.list front) code) done leaving) :
    OnlyAfter first second done := by
  cases path with
  | cut => exact .of_notMem List.not_mem_nil
  | left part => exact .of_notMem (forks.notMem_of_front linked inFront part)
  | seq whole =>
    obtain ⟨part, completed, subset⟩ := whole.exists_of_mem isEarlier
    exact .of_mem (subset (straight.mem completed)) (forks.notMem_of_front linked inFront whole)

theorem Fork.earlier_ne_last (forks : t.Fork fork first second) (linked : t.Linked)
    {others : List NodeId} {last : NodeId} (shape : (t.node fork).children = others ++ [last]) :
    forks.earlier ≠ last := by
  intro same
  have ends : forks.back.getLast? = some last := by
    have whole := congrArg List.getLast? (forks.children.symm.trans shape)
    rw [List.getLast?_append_of_ne_nil _ (List.ne_nil_of_mem forks.inBack)] at whole
    simpa using whole
  have distinct := linked.nodup_children fork
  rw [forks.children, List.nodup_append] at distinct
  exact distinct.2.2 _ forks.inFront _ (List.mem_of_getLast? ends) same

theorem codes_of_list (isList : (t.node id).isVariableDeclaration = true ∨
    ∃ body, t.node id = .block body) :
    t.codes id = [.list (t.node id).children] := by
  rcases isList with isDeclaration | ⟨body, isBlock⟩
  · cases shape : t.node id <;> simp_all [Node.isVariableDeclaration, codes]
  · simp [codes, isBlock]

theorem Sorted.not_isProgram_of_isWithin {own : NodeId → Prop} (sorted : t.Sorted own)
    (linked : t.Linked) (isOwn : own outer) (within : t.isWithin id outer = true)
    (different : id ≠ outer) :
    (t.node id).isProgram = false := by
  obtain ⟨parent, held, parentWithin⟩ := linked.exists_parent_of_isWithin within different
  have admitted :=
    (sorted.child (sorted.own_of_isWithin linked isOwn parentWithin)
      (linked.mem_children.mpr held)).2
  cases shape : t.node id <;>
    simp_all [Node.isProgram, Node.admits, Node.isOperand, Node.isStatement, Node.isCase,
      Node.isDeclarator]

/-- The tests and steps of for statements are operands. -/
def testsOperands (t : Tree) : Bool :=
  (List.range t.size).all fun index => match t.node ⟨index⟩ with
    | .for_ _ test step _ => (test.toList ++ step.toList).all fun part => (t.node part).isOperand
    | _ => true

theorem isOperand_of_testsOperands (operands : t.testsOperands = true)
    {start test step : Option NodeId} {body : NodeId}
    (shape : t.node id = .for_ start test step body) {part : NodeId}
    (member : part ∈ test.toList ++ step.toList) :
    (t.node part).isOperand = true := by
  have allocated : t.Allocated id := by
    by_contra missing
    rw [node_of_not_allocated missing] at shape
    cases shape
  have checked := List.all_eq_true.mp operands id.index (List.mem_range.mpr allocated)
  simp only [shape, List.all_eq_true] at checked
  exact checked part member

end Tree

namespace Program

variable {p : Program} {d : Declaration} {id init : NodeId} {binding : BindingId}

namespace Steady

variable (steady : p.Steady)

include steady

theorem isWithin_owner_of_declared (member : d ∈ p.lexicon.declared)
    (shape : p.node d.declaration = .variableDeclarator d.identifier (some init)) :
    p.tree.isWithin d.declaration d.owner = true := by
  obtain ⟨-, within, -, opens⟩ := steady.linked.scopes_owner steady.isTop member
  have held : p.tree.parent? d.identifier = some d.declaration := by
    rw [← steady.linked.mem_children, ← node, shape]
    simp [Node.children]
  have spelled := steady.linked.spelled_of_mem_declared steady.isTop member
  have different : d.identifier ≠ d.owner := by
    intro same
    rw [← same, Tree.opens, Tree.scopeKind?] at opens
    cases identifier : p.tree.node d.identifier <;> simp_all [Node.identifier?]
  exact steady.linked.isWithin_parent held different ▸ within

variable (sorted : p.tree.Sorted fun id => p.isAttached id = true)
  (member : d ∈ p.lexicon.declared) (certain : p.Certain d init)

include sorted member certain

theorem straight_of_certain (within : p.tree.isWithin d.declaration id = true)
    (around : p.tree.isWithin id d.owner = true) (different : id ≠ d.owner) :
    p.tree.Straight d.declaration id ∧
      (id = d.declaration ∨ (p.node id).isVariableDeclaration = true ∨
        ∃ body, p.node id = .block body) := by
  have linked := steady.linked
  obtain ⟨holder, declares, held, isDeclarator⟩ := steady.exists_declaring member certain.isVariable
  obtain ⟨-, -, attached, -⟩ := linked.scopes_owner steady.isTop member
  have isOwner : p.isAttached d.owner = true := by rwa [isAttached_eq linked steady.isTop.top]
  have isOwn := sorted.own_of_isWithin linked isOwner around
  have allocated := linked.allocated_of_isWithin (linked.isWithin_trans around attached)
    steady.isTop.allocated
  induction id, allocated using linked.induction_children with
  | step id allocated induction =>
    by_cases same : id = d.declaration
    · exact ⟨same ▸ .here, .inl same⟩
    obtain ⟨child, isChild, below⟩ := linked.exists_child within (Ne.symm same)
    have childHeld := linked.mem_children.mp isChild
    have childAround := linked.isWithin_trans (linked.isWithin_of_parent childHeld) around
    have childDifferent : child ≠ d.owner := by
      rintro rfl
      exact different (linked.isWithin_antisymm around (linked.isWithin_of_parent childHeld))
    obtain ⟨isOwnChild, admitted⟩ := sorted.child isOwn isChild
    obtain ⟨straight, kind⟩ := induction child childHeld below childAround childDifferent isOwnChild
    have holderWithin : p.tree.isWithin holder id = true := by
      rwa [linked.isWithin_parent held (Ne.symm same)] at within
    have notFunction : (p.node id).isFunction = false := by
      rw [Bool.eq_false_iff]
      exact fun isFunction => different (linked.isWithin_antisymm around
        (linked.isWithin_owner_of_function declares certain.isVariable holderWithin isFunction))
    have unconditional : Scopes.isConditional (p.node id) = false := by
      rw [Bool.eq_false_iff]
      intro conditional
      have above := (Tree.isWithin_iff.mp within).resolve_left (Ne.symm same)
      exact different (linked.isWithin_antisymm around (certain.unconditional id above conditional))
    have notProgram : (p.node id).isProgram = false :=
      sorted.not_isProgram_of_isWithin linked isOwner around different
    have isKind : (p.node id).isVariableDeclaration = true ∨ ∃ body, p.node id = .block body := by
      change (p.node id).admits (p.node child) = true at admitted
      have isStatement : (p.node child).isDeclarator = true ∨
          (p.node child).isStatement = true := by
        rcases kind with rfl | isDeclaration | ⟨body, isBlock⟩
        · exact .inl isDeclarator
        · exact .inr (Node.isStatement_of_isVariableDeclaration isDeclaration)
        · exact .inr (by rw [isBlock]; rfl)
      exact Node.isVariableDeclaration_or_isBlock_of_admits admitted isStatement notFunction
        unconditional notProgram
    refine ⟨.inside (Tree.codes_of_list isKind) isChild straight, .inr isKind⟩

theorem straight_of_fork (forks : p.tree.Fork fork d.declaration id)
    (around : p.tree.isWithin fork d.owner = true) :
    p.tree.Straight d.declaration forks.earlier ∧
      ((p.node forks.earlier).isDeclarator = true ∨ (p.node forks.earlier).isStatement = true) := by
  have linked := steady.linked
  have held := forks.earlier_held linked
  have different : forks.earlier ≠ d.owner := by
    intro same
    rw [← same] at around
    exact linked.ne_of_isWithin_child held around rfl
  obtain ⟨straight, kind⟩ := steady.straight_of_certain sorted member certain forks.isEarlier
    (linked.isWithin_trans (linked.isWithin_of_parent held) around) different
  refine ⟨straight, ?_⟩
  rcases kind with same | isDeclaration | ⟨body, isBlock⟩
  · obtain ⟨-, -, -, isDeclarator⟩ := steady.exists_declaring member certain.isVariable
    exact .inl (by rwa [same])
  · exact .inr (Node.isStatement_of_isVariableDeclaration isDeclaration)
  · exact .inr (by rw [isBlock]; rfl)

theorem onlyAfter_of_list (forks : p.tree.Fork fork d.declaration id)
    (around : p.tree.isWithin fork d.owner = true)
    (isList : p.tree.codes fork = [.list (p.node fork).children]) {code : Code}
    (isWay : code ∈ p.tree.codes fork) {done : List NodeId} {leaving : Leaving}
    (path : p.tree.Path code done leaving) :
    Tree.OnlyAfter d.declaration id done := by
  rw [isList, List.mem_singleton] at isWay
  subst isWay
  have straight := (steady.straight_of_fork sorted member certain forks around).1
  exact forks.onlyAfter_of_list steady.linked (fun _ held => held) forks.inFront straight
    (forks.children ▸ path)

theorem onlyAfter_of_for (operands : p.tree.testsOperands = true)
    (forks : p.tree.Fork fork d.declaration id) (around : p.tree.isWithin fork d.owner = true)
    {start test step : Option NodeId} {body : NodeId}
    (shape : p.node fork = .for_ start test step body) {code : Code}
    (isWay : code ∈ p.tree.codes fork) {done : List NodeId} {leaving : Leaving}
    (path : p.tree.Path code done leaving) :
    Tree.OnlyAfter d.declaration id done := by
  have linked := steady.linked
  obtain ⟨straight, isKind⟩ := steady.straight_of_fork sorted member certain forks around
  have children :
      (p.tree.node fork).children = (start.toList ++ test.toList ++ step.toList) ++ [body] := by
    rw [← node, shape]
    rfl
  have isStart : start = some forks.earlier := by
    have isChild : forks.earlier ∈ (p.tree.node fork).children :=
      forks.children ▸ List.mem_append_left _ forks.inFront
    rw [children, List.mem_append, List.mem_singleton, List.append_assoc, List.mem_append]
      at isChild
    rcases isChild with (isStart | isTest) | isBody
    · exact Option.mem_toList.mp isStart
    · have isOperand := Tree.isOperand_of_testsOperands operands shape isTest
      change (p.node forks.earlier).isOperand = true at isOperand
      rw [(Node.notCase_of_isPart isKind).1] at isOperand
      cases isOperand
    · exact absurd isBody (forks.earlier_ne_last linked children)
  have isWay :
      code = .seq (.list [forks.earlier])
        (.catching .break_ (.loop test.toList body step.toList)) := by
    rw [node] at shape
    simpa [Tree.codes, shape, isStart] using isWay
  subst isWay
  exact forks.onlyAfter_of_seq linked (by simpa using forks.inFront)
    (List.mem_singleton_self _) straight path

/-- The fork at a scope is not a function or a switch statement: what runs there always is the last
child, or in a case. -/
theorem isList_or_isFor_of_opens (forks : p.tree.Fork fork d.declaration id)
    (isOwner : fork = d.owner) :
    p.tree.entry fork = .node fork ∧ (p.tree.codes fork = [.list (p.node fork).children] ∨
      ∃ start test step body, p.node fork = .for_ start test step body) := by
  have linked := steady.linked
  obtain ⟨-, -, attached, opens⟩ := linked.scopes_owner steady.isTop member
  rw [← isOwner] at attached opens
  obtain ⟨-, isKind⟩ := steady.straight_of_fork sorted member certain forks
    (isOwner ▸ Tree.isWithin_self)
  have held := forks.earlier_held linked
  have isOwn : p.isAttached fork = true := by rwa [isAttached_eq linked steady.isTop.top]
  have admitted := (sorted.child isOwn (linked.mem_children.mpr held)).2
  obtain ⟨notOperand, notCase⟩ := Node.notCase_of_isPart isKind
  rw [node] at notOperand notCase
  rw [Tree.opens, Tree.scopeKind?] at opens
  split at opens <;> rename_i shape
  · simp [Tree.entry, Tree.codes, node, shape]
  · rename_i f
    -- The name and the parameters of a function are patterns.
    have isChild := linked.mem_children.mpr held
    simp only [shape, Node.children, List.mem_append, List.mem_singleton] at isChild
    have binds : p.tree.Binds forks.earlier := by
      rcases isChild with (isName | isParam) | isBody
      · have held : forks.earlier ∈ (p.tree.node fork).part .name := by rwa [shape]
        exact .place (by simp) held
      · have held : forks.earlier ∈ (p.tree.node fork).part .params := by rwa [shape]
        exact .place (by simp) held
      · exact absurd isBody (forks.earlier_ne_last linked (by rw [shape]; rfl))
    rw [Node.isOperand_of_isPattern (steady.wellBound.pattern binds)] at notOperand
    cases notOperand
  · simp [Tree.entry, Tree.codes, node, shape]
  · simp [Tree.entry, node, shape]
  · simp [Node.admits, notOperand, notCase, shape, Node.holdsStatements,
      Node.isVariableDeclaration] at admitted
  · cases opens

theorem onlyAfter_of_certain (operands : p.tree.testsOperands = true)
    (within : p.tree.isWithin id d.owner = true)
    (precedes : p.tree.precedes d.declaration id = true) {done : List NodeId} {leaving : Leaving}
    (path : p.tree.Path (p.tree.entry d.owner) done leaving) :
    Tree.OnlyAfter d.declaration id done := by
  have linked := steady.linked
  have inside := steady.isWithin_owner_of_declared member certain.shape
  obtain ⟨fork, ⟨forks⟩⟩ := Tree.exists_fork precedes
  have around := forks.isWithin_of_common linked inside within
  have beyond := forks.isWithin_second linked
  by_cases isOwner : fork = d.owner
  · obtain ⟨entry, isKind⟩ := steady.isList_or_isFor_of_opens sorted member certain forks isOwner
    rw [← isOwner, entry] at path
    cases path with
    | cut => exact .of_notMem List.not_mem_nil
    | node isWay path =>
      refine .append ?_ (.of_notMem fun completed => ?_)
      · rcases isKind with isList | ⟨start, test, step, body, isFor⟩
        · exact steady.onlyAfter_of_list sorted member certain forks around isList isWay path
        · exact steady.onlyAfter_of_for sorted member certain operands forks around isFor isWay path
      · split at completed
        · exact forks.second_ne linked (List.mem_singleton.mp completed)
        · cases completed
  · obtain ⟨-, kind⟩ := steady.straight_of_certain sorted member certain
      (forks.isWithin_first linked) around isOwner
    have isList := kind.resolve_left (forks.first_ne linked).symm
    have notCase : (p.node fork).isCase = false := by
      rcases isList with isDeclaration | ⟨body, isBlock⟩
      · exact (Node.notCase_of_isPart
          (.inr (Node.isStatement_of_isVariableDeclaration isDeclaration))).2
      · rw [isBlock]
        rfl
    refine path.onlyAfter linked notCase (forks.isWithin_second linked) (forks.second_ne linked)
      (fun isWay way =>
        steady.onlyAfter_of_list sorted member certain forks around
          (Tree.codes_of_list isList) isWay way) ?_
    -- What is entered with a scope is the scope or children of it.
    intro part isPart isWithin
    rcases p.tree.mem_nodes_entry isPart with same | isChild
    · exact absurd (linked.isWithin_antisymm around (same ▸ isWithin)) isOwner
    · exact linked.eq_of_between (linked.mem_children.mp isChild) isWithin around isOwner

end Steady

/-- On every path into the scope of a name that has a certain value, the declaration of the name is
completed before the name is read. -/
theorem Reached.declared_first (reached : p.Reached) (verified : p.verify = .ok ())
    (wellBound : p.tree.WellBound) (sorted : p.tree.Sorted fun id => p.isAttached id = true)
    (operands : p.tree.testsOperands = true) (belongs : p.bindingOf? id = some binding)
    (constant : p.constantInit? id binding = some init) {done : List NodeId} {leaving : Leaving}
    (path : p.tree.Path (p.tree.entry (p.scopes.scope (p.binding binding).scope).node)
      done leaving) :
    Tree.OnlyAfter (p.binding binding).declaration id done := by
  have steady : p.Steady := ⟨reached.sound verified, wellBound⟩
  obtain ⟨d, means, stands⟩ := steady.sound.exists_of_bindingOf? belongs
  obtain ⟨kind, outer, -, represents⟩ := steady.sound.describes.scope _ _ stands.scope
  have certain := steady.certain_of_constantInit? stands constant
  have precedes : p.tree.precedes d.declaration id = true := by
    simp only [constantInit?, Program.binding, Option.ite_none_right_eq_some, stands.declaration,
      certain.shape, Bool.and_eq_true] at constant
    exact constant.2.1.2
  rw [Program.binding, represents.node] at path
  rw [Program.binding, stands.declaration]
  exact steady.onlyAfter_of_certain sorted (Lexicon.binder?_some (Lexicon.meaning?_some means)).1
    certain operands (steady.isWithin_owner_of_meaning? means) precedes path

/-! ### An instance -/

/-- The tree of `const x = true; while (x) break;`. -/
def testedConstant : Tree :=
  ⟨#[⟨.identifier "x", some ⟨2⟩⟩, ⟨.literal (.boolean true), some ⟨2⟩⟩,
    ⟨.variableDeclarator ⟨0⟩ (some ⟨1⟩), some ⟨3⟩⟩, ⟨.variableDeclaration .const [⟨2⟩], some ⟨7⟩⟩,
    ⟨.identifier "x", some ⟨6⟩⟩, ⟨.break_, some ⟨6⟩⟩, ⟨.while_ ⟨4⟩ ⟨5⟩, some ⟨7⟩⟩,
    ⟨.program [⟨3⟩, ⟨6⟩], none⟩]⟩

theorem path_testedConstant :
    testedConstant.Path (testedConstant.entry ⟨7⟩) [⟨1⟩, ⟨0⟩, ⟨2⟩, ⟨3⟩, ⟨4⟩, ⟨6⟩, ⟨7⟩]
      .normally := by
  have leaf (id : NodeId) (isLeaf : testedConstant.codes id = [.list []]) :
      testedConstant.Path (.node id) [id] .normally :=
    .node (isLeaf ▸ List.mem_singleton_self _) (.leave .normally)
  have declarator : testedConstant.Path (.node ⟨2⟩) [⟨1⟩, ⟨0⟩, ⟨2⟩] .normally :=
    .node (List.mem_singleton_self _) (.seq (leaf ⟨1⟩ rfl) (.seq (leaf ⟨0⟩ rfl) (.leave .normally)))
  have declaration : testedConstant.Path (.node ⟨3⟩) [⟨1⟩, ⟨0⟩, ⟨2⟩, ⟨3⟩] .normally :=
    .node (List.mem_singleton_self _) (.seq declarator (.leave .normally))
  have leaves : testedConstant.Path (.node ⟨5⟩) [] (.jump .break_) :=
    .node (List.mem_singleton_self _) (.leave (.jump .break_))
  have loop : testedConstant.Path (.loop [⟨4⟩] ⟨5⟩ []) [⟨4⟩] (.jump .break_) :=
    .round (.seq (.seq (leaf ⟨4⟩ rfl) (.leave .normally)) (.left (.catching leaves) (by decide)))
  have caught : testedConstant.Path (.catching .break_ (.loop [⟨4⟩] ⟨5⟩ [])) [⟨4⟩] .normally :=
    .catching loop
  have statement : testedConstant.Path (.node ⟨6⟩) [⟨4⟩, ⟨6⟩] .normally :=
    .node (List.mem_singleton_self _) caught
  exact .node (List.mem_singleton_self _) (.seq declaration (.seq statement (.leave .normally)))

/-- What is tested has been declared. -/
theorem exists_declared_first :
    ∃ p binding, ofTree testedConstant ⟨7⟩ = .ok p ∧ p.bindingOf? ⟨4⟩ = some binding ∧
      p.constantInit? ⟨4⟩ binding = some ⟨1⟩ ∧
        p.tree.Path (p.tree.entry (p.scopes.scope (p.binding binding).scope).node)
          [⟨1⟩, ⟨0⟩, ⟨2⟩, ⟨3⟩, ⟨4⟩, ⟨6⟩, ⟨7⟩] .normally ∧
        Tree.OnlyAfter (p.binding binding).declaration ⟨4⟩ [⟨1⟩, ⟨0⟩, ⟨2⟩, ⟨3⟩, ⟨4⟩, ⟨6⟩, ⟨7⟩] := by
  have linked : testedConstant.Linked := Tree.linked_of_checks (by decide)
  have isTop : testedConstant.IsTop ⟨7⟩ := ⟨by decide, by decide⟩
  obtain ⟨scopes, made, steady⟩ := exists_steady testedConstant ⟨7⟩ linked isTop
    (Tree.wellBound_of_bindsWell (by decide)) rfl
  have means : (testedConstant.lexicon ⟨7⟩).meaning? ⟨4⟩ = some ⟨⟨7⟩, "x", .const, ⟨2⟩, ⟨0⟩⟩ := by
    decide
  obtain ⟨binding, stands, noWrite, belonging⟩ := steady.sound.exists_unwritten
    (fun id => not_writes linked isTop (by decide) (by decide) _ id) means
  have belongs : Program.bindingOf? ⟨testedConstant, ⟨7⟩, scopes, false⟩ ⟨4⟩ = some binding :=
    belonging ⟨4⟩ means
  obtain ⟨kind, outer, -, represents⟩ := steady.sound.describes.scope _ _ stands.scope
  have constant : Program.constantInit? ⟨testedConstant, ⟨7⟩, scopes, false⟩ ⟨4⟩ binding =
      some ⟨1⟩ := by
    simp only [Program.binding] at noWrite
    simp only [constantInit?, Program.binding, Binding.isConstant, noWrite,
      Scopes.isUnconditional, represents.node, stands.declaration, stands.identifier,
      stands.kind, Program.node]
    decide
  have isOwner : (scopes.scope (scopes.binding binding).scope).node = ⟨7⟩ := represents.node
  have path :
      testedConstant.Path (testedConstant.entry (scopes.scope (scopes.binding binding).scope).node)
        [⟨1⟩, ⟨0⟩, ⟨2⟩, ⟨3⟩, ⟨4⟩, ⟨6⟩, ⟨7⟩] .normally := by
    rw [isOwner]
    exact path_testedConstant
  exact ⟨_, binding, made, belongs, constant, path, Reached.declared_first (.made linked isTop made)
    steady.sound.verify steady.wellBound
    (steady.sound.rooted.sorted_of_isSorted (show testedConstant.isSorted = true by decide))
    (show testedConstant.testsOperands = true by decide) belongs constant path⟩

end Program

end Unravel
