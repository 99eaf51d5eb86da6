import Unravel.Proofs.Eval.Keyed
import Unravel.Proofs.Simplify.Lighten
import Unravel.Proofs.Tree.Sorted
import Unravel.Proofs.Tree.Weight
import Unravel.Simplify.FlatLoop

/-!
Flattened loops and what is taken from them. Around a switch over an element of an array that is
known the loop is a dispatcher (`FlatLoop.IsDispatcher`), and the statements that are taken are
those of the cases that the elements of the array select (`FlatLoop.exists_entered_of_plan?`): they
stand in the loop, and no jump goes out of them (`FlatLoop.shape_of_plan?`).

Unflattening may copy the loops inside a loop any number of times, but never as deep as they were. A
program is therefore weighed by how many loops there are at each depth (`FlatLoop.loopDepths`),
where what is deeper outweighs any number of what is not.
-/

namespace Unravel

theorem Value.exists_strictEquals? {x y : Value} (equal : x.strictEquals? y = some true)
    (z : Value) :
    ∃ answer, x.strictEquals? z = some answer := by
  cases x with
  | array => cases y <;> cases equal
  | object => cases y <;> cases equal
  | _ => cases z <;> exact ⟨_, rfl⟩

namespace FlatLoop

variable {p : Program} {loop index case : NodeId} {items : List Value}
  {cases statements entered : List NodeId} {value : Value} {selected other : Option NodeId}

/-! ### Jumps out of statements -/

/--
The test searches as deep as a jump can be. Inside of a switch it passes over what the switch
catches. -/
theorem jumpsOutWithin_of_jumpsOut {t : Tree} (linked : t.Linked) {j : Jump} {id : NodeId}
    (jumpsOut : t.JumpsOut j id) {limit : Nat} {inSwitch : Bool}
    (passes : inSwitch = true → j = .continue_)
    (enough : t.size ≤ limit + (t.ancestors id).length) :
    jumpsOutWithin t limit inSwitch id = true := by
  induction jumpsOut generalizing limit inSwitch with
  | @here id isJump =>
    have allocated : t.Allocated id := by
      by_contra missing
      rw [Tree.node_of_not_allocated missing] at isJump
      cases isJump
    have room := linked.length_ancestors_lt allocated
    obtain ⟨levels, rfl⟩ := Nat.exists_eq_add_one_of_ne_zero (by omega : limit ≠ 0)
    unfold jumpsOutWithin
    cases shape : t.node id <;> simp_all [Node.jump?]
    cases inSwitch
    · rfl
    · subst isJump
      cases passes rfl
  | @deeper id child member notCaught notFunction jumpsOut induction =>
    have held := linked.mem_children.mp member
    have room := linked.length_ancestors_lt (linked.allocated_parent held)
    obtain ⟨levels, rfl⟩ := Nat.exists_eq_add_one_of_ne_zero (by omega : limit ≠ 0)
    have deeper : t.size ≤ levels + (t.ancestors child).length := by
      rw [linked.ancestors_of_parent held, List.length_cons]
      omega
    have found (inSwitch : Bool) (passes : inSwitch = true → j = .continue_) :
        (t.node id).children.any (jumpsOutWithin t levels inSwitch) = true :=
      List.any_eq_true.mpr ⟨child, member, induction passes deeper⟩
    unfold jumpsOutWithin
    split
    · rename_i shape
      rw [shape] at member
      cases member
    · rfl
    · rename_i shape
      rw [shape] at notCaught
      cases notCaught
    · rename_i shape
      rw [shape] at notCaught
      cases notCaught
    · rename_i shape
      rw [shape] at notFunction
      cases notFunction
    · rename_i shape
      refine found true fun _ => ?_
      rw [shape] at notCaught
      cases j with
      | break_ => cases notCaught
      | continue_ => rfl
    · exact found inSwitch passes

theorem not_jumpsOut {t : Tree} (linked : t.Linked) {id : NodeId}
    (stays : jumpsOut t id = false) (j : Jump) :
    ¬t.JumpsOut j id := by
  intro jumps
  have found : jumpsOutWithin t t.size false id = true :=
    jumpsOutWithin_of_jumpsOut linked jumps nofun (Nat.le_add_right ..)
  rw [← jumpsOut, stays] at found
  cases found

/-! ### Loops that dispatch -/

/-- An endless loop around a switch over an element of an array that is known:
`while (test) { switch (name[index]) { cases } break; }`. -/
inductive IsDispatcher (p : Program) (loop index : NodeId) (items : List Value)
    (cases : List NodeId) : Prop where
  | intro {test body switch tail discriminant base declarator init : NodeId} {binding : BindingId}
      {truth : Value} (isLoop : p.node loop = .while_ test body)
      (isBody : p.node body = .block [switch, tail]) (isTail : p.node tail = .break_)
      (isSwitch : p.node switch = .switch discriminant cases)
      (isElement : p.node discriminant = .member base index true)
      (isTest : p.evaluate? test = some truth) (endless : truth.toBool = true)
      (uses : p.usedBinding? base = some binding) (constant : p.isConstantVariable binding = true)
      (initialized : p.initialized? binding = some (declarator, init))
      (isArray : p.evaluate? init = some (.array items))

/-- The value that the test of a case is certain to have. -/
def tested? (p : Program) (case : NodeId) : Option Value :=
  match p.node case with
  | .switchCase (some test) _ => p.evaluate? test
  | _ => none

/-- The statements of a case but for the last one. -/
def bodyOf (p : Program) (case : NodeId) : List NodeId :=
  match p.node case with
  | .switchCase _ consequent => consequent.dropLast
  | _ => []

/-- The statements of a case run to the `continue` at their end: no jump goes out of the others. -/
def EndsRound (p : Program) (case : NodeId) : Prop :=
  ∃ test last, p.node case = .switchCase (some test) (bodyOf p case ++ [last]) ∧
    p.node last = .continue_ ∧
    ∀ statement ∈ bodyOf p case, ∀ j, ¬p.tree.JumpsOut j statement

/-- A switch over a value enters the first case whose test is strictly equal to it, or none. -/
inductive Selects (p : Program) (value : Value) : List NodeId → Option NodeId → Prop where
  | none : Selects p value [] none
  | first {case : NodeId} {rest : List NodeId}
      (equal : (tested? p case).bind value.strictEquals? = some true) :
      Selects p value (case :: rest) (some case)
  | later {case : NodeId} {rest : List NodeId} {selected : Option NodeId}
      (different : (tested? p case).bind value.strictEquals? = some false)
      (further : Selects p value rest selected) :
      Selects p value (case :: rest) selected

theorem Selects.unique (selects : Selects p value cases selected)
    (again : Selects p value cases other) :
    selected = other := by
  induction selects with
  | none => cases again; rfl
  | first equal =>
    cases again with
    | first => rfl
    | later different =>
      rw [equal] at different
      cases different
  | later different _ induction =>
    cases again with
    | first equal =>
      rw [different] at equal
      cases equal
    | later _ further => exact induction further

theorem Selects.mem (selects : Selects p value cases (some case)) : case ∈ cases := by
  generalize isSome : some case = selected at selects
  induction selects with
  | none => cases isSome
  | first =>
    cases isSome
    exact List.mem_cons_self ..
  | later _ _ induction => exact List.mem_cons_of_mem _ (induction isSome)

theorem subset_of_selects (selects :
    List.Forall₂ (fun item case => Selects p item cases (some case)) items entered) :
    entered ⊆ cases := by
  induction selects with
  | nil => exact List.nil_subset _
  | cons selected _ induction => exact List.cons_subset.mpr ⟨selected.mem, induction⟩

theorem EndsRound.mem_children {statement : NodeId} (ends : EndsRound p case)
    (member : statement ∈ bodyOf p case) :
    statement ∈ (p.tree.node case).children := by
  obtain ⟨test, last, shape, -⟩ := ends
  rw [show p.tree.node case = _ from shape]
  simp [Node.children, member]

/-! ### The statements that are taken -/

theorem selects_of_findIdx? {entries : List (Value × List NodeId)} {position : Nat}
    {entry : Value × List NodeId}
    (aligned :
      List.Forall₂ (fun case entry => tested? p case = some entry.1 ∧ bodyOf p case = entry.2)
        cases entries)
    (found : entries.findIdx? (fun (test, _) => value.strictEquals? test = some true) =
      some position)
    (isEntry : entries[position]? = some entry) :
    ∃ case ∈ cases, Selects p value cases (some case) ∧ bodyOf p case = entry.2 := by
  have certain (other : Value) : ∃ answer, value.strictEquals? other = some answer := by
    obtain ⟨bound, equal, -⟩ := List.findIdx?_eq_some_iff_getElem.mp found
    exact Value.exists_strictEquals? (of_decide_eq_true equal) other
  induction aligned generalizing position with
  | nil => cases found
  | @cons case head rest entries first others induction =>
    obtain ⟨test, statements⟩ := head
    obtain ⟨tested, isBody⟩ := first
    rw [List.findIdx?_cons] at found
    by_cases equal : value.strictEquals? test = some true
    · rw [if_pos (decide_eq_true equal), Option.some.injEq] at found
      subst found
      cases isEntry
      exact ⟨case, List.mem_cons_self .., .first (by rw [tested]; exact equal), isBody⟩
    · rw [if_neg (by simpa using equal)] at found
      obtain ⟨further, isFurther, rfl⟩ := Option.map_eq_some_iff.mp found
      obtain ⟨selected, member, selects, isBody⟩ := induction isFurther isEntry
      refine ⟨selected, List.mem_cons_of_mem _ member, .later ?_ selects, isBody⟩
      obtain ⟨answer, isAnswer⟩ := certain test
      rw [tested, Option.bind_some, isAnswer]
      cases answer with
      | false => rfl
      | true => exact absurd isAnswer equal

theorem exists_entered_of_foldlM {entries : List (Value × List NodeId)}
    {start result : List Nat × List NodeId}
    (aligned :
      List.Forall₂ (fun case entry => tested? p case = some entry.1 ∧ bodyOf p case = entry.2)
        cases entries)
    (found : items.foldlM (addCase p entries) start = some result) :
    ∃ entered, List.Forall₂ (fun item case => Selects p item cases (some case)) items entered ∧
      result.2 = start.2 ++ entered.flatMap (bodyOf p) := by
  induction items generalizing start with
  | nil =>
    cases found
    exact ⟨[], .nil, by simp⟩
  | cons item rest induction =>
    rw [List.foldlM_cons, Option.bind_eq_bind, Option.bind_eq_some_iff] at found
    obtain ⟨next, added, found⟩ := found
    obtain ⟨entered, selects, taken⟩ := induction found
    simp only [addCase, bind, Option.bind_eq_some_iff] at added
    obtain ⟨position, isPosition, entry, isEntry, added⟩ := added
    obtain ⟨case, -, selected, isBody⟩ := selects_of_findIdx? aligned isPosition isEntry
    split at added
    · cases added
    · cases added
      exact ⟨case :: entered, .cons selected selects,
        by rw [taken, List.flatMap_cons, isBody, List.append_assoc]⟩

theorem exists_dispatch?_iff :
    dispatch? p loop = some (items, cases) ↔ ∃ index, IsDispatcher p loop index items cases := by
  constructor
  · intro found
    unfold dispatch? at found
    split at found
    · rename_i isLoop
      split at found
      · rename_i isBody
        split at found
        · rename_i isSwitch isTail
          split at found
          · rename_i isElement
            simp only [bind, Option.bind_eq_some_iff] at found
            obtain ⟨truth, isTest, binding, uses, ⟨_, init⟩, initialized, value, isArray, order,
              isOrder, found⟩ :=
                found
            split at found
            · rename_i holds
              rw [Bool.and_eq_true] at holds
              cases found
              cases value <;> cases isOrder
              exact ⟨_, .intro isLoop isBody isTail isSwitch isElement isTest holds.1 uses holds.2
                initialized isArray⟩
            · cases found
          · cases found
        · cases found
      · cases found
    · cases found
  · rintro ⟨index, isLoop, isBody, isTail, isSwitch, isElement, isTest, endless, uses, constant,
      initialized, isArray⟩
    rw [dispatch?, isLoop]
    simp only [isBody, isTail, isSwitch, isElement, isTest, uses, initialized, isArray, endless,
      constant, bind, Option.bind_some, Bool.and_self, if_true]
    rfl

theorem of_case? (linked : p.tree.Linked) {entry : Value × List NodeId}
    (found : case? p case = some entry) :
    tested? p case = some entry.1 ∧ bodyOf p case = entry.2 ∧ EndsRound p case := by
  unfold case? at found
  split at found
  · rename_i test consequent shape
    simp only [bind, Option.bind_eq_some_iff] at found
    obtain ⟨value, isValue, last, isLast, found⟩ := found
    have isBody : bodyOf p case = consequent.dropLast := by rw [bodyOf, shape]
    split at found
    · rename_i isContinue
      split at found
      · cases found
      · rename_i stay
        cases found
        refine ⟨by rw [tested?, shape]; exact isValue, isBody, test, last, ?_, isContinue,
          fun statement member j => ?_⟩
        · rw [shape, isBody, List.dropLast_append_getLast? _ isLast]
        · refine not_jumpsOut linked ?_ j
          rw [Bool.eq_false_iff]
          exact fun jumps => stay (List.any_eq_true.mpr ⟨statement, isBody ▸ member, jumps⟩)
    · cases found
  · cases found

theorem of_mapM_case? (linked : p.tree.Linked) {entries : List (Value × List NodeId)}
    (found : cases.mapM (case? p) = some entries) :
    List.Forall₂ (fun case entry => tested? p case = some entry.1 ∧ bodyOf p case = entry.2)
      cases entries ∧
      ∀ case ∈ cases, EndsRound p case ∧ ∃ value, tested? p case = some value := by
  induction cases generalizing entries with
  | nil =>
    cases found
    exact ⟨.nil, nofun⟩
  | cons case rest induction =>
    rw [List.mapM_cons] at found
    simp only [Option.bind_eq_bind, Option.bind_eq_some_iff, Option.pure_def,
      Option.some.injEq] at found
    obtain ⟨entry, isEntry, others, found, rfl⟩ := found
    obtain ⟨tested, isBody, ends⟩ := of_case? linked isEntry
    obtain ⟨aligned, each⟩ := induction found
    exact ⟨.cons ⟨tested, isBody⟩ aligned, List.forall_mem_cons.mpr ⟨⟨ends, _, tested⟩, each⟩⟩

theorem exists_entered_of_plan? {count : Nat} (linked : p.tree.Linked)
    (planned : plan? p loop = some (statements, count)) :
    ∃ index items cases entered, IsDispatcher p loop index items cases ∧ count = items.length ∧
      (∀ case ∈ cases, EndsRound p case ∧ ∃ value, tested? p case = some value) ∧
      List.Forall₂ (fun item case => Selects p item cases (some case)) items entered ∧
      statements = entered.flatMap (bodyOf p) := by
  simp only [plan?, bind, Option.bind_eq_some_iff] at planned
  obtain ⟨⟨items, cases⟩, dispatched, entries, found, ⟨used, taken⟩, folded, same⟩ := planned
  cases same
  obtain ⟨index, dispatcher⟩ := exists_dispatch?_iff.mp dispatched
  have ends := of_mapM_case? linked found
  obtain ⟨entered, selects, isTaken⟩ := exists_entered_of_foldlM (ends.1) folded
  exact ⟨index, items, cases, entered, dispatcher, rfl, ends.2, selects, isTaken⟩

/--
The statements that are taken are statements of cases in the loop, and no jump goes out of them. -/
theorem shape_of_plan? {count : Nat} (linked : p.tree.Linked)
    (planned : plan? p loop = some (statements, count)) :
    ∃ test body switch tail discriminant cases, p.node loop = .while_ test body ∧
      p.node body = .block [switch, tail] ∧ p.node switch = .switch discriminant cases ∧
      ∀ statement ∈ statements, ∃ case ∈ cases, statement ∈ bodyOf p case ∧ EndsRound p case := by
  obtain ⟨index, items, cases, entered, dispatcher, -, ends, selects, rfl⟩ :=
    exists_entered_of_plan? linked planned
  obtain ⟨isLoop, isBody, -, isSwitch, -⟩ := dispatcher
  refine ⟨_, _, _, _, _, cases, isLoop, isBody, isSwitch, fun statement member => ?_⟩
  obtain ⟨case, isEntered, isHeld⟩ := List.mem_flatMap.mp member
  have isCase := subset_of_selects selects isEntered
  exact ⟨case, isCase, isHeld, (ends case isCase).1⟩

theorem isWithin_of_plan? {count : Nat} (linked : p.tree.Linked)
    (planned : plan? p loop = some (statements, count)) :
    ∃ test body, p.tree.node loop = .while_ test body ∧
      ∀ id ∈ statements, p.tree.isWithin id body = true := by
  obtain ⟨test, body, switch, tail, discriminant, cases, loopShape, bodyShape,
    switchShape, taken⟩ :=
      shape_of_plan? linked planned
  refine ⟨test, body, loopShape, fun id member => ?_⟩
  obtain ⟨case, isCase, isHeld, ends⟩ := taken id member
  have inBody : p.tree.parent? switch = some body := by
    rw [← linked.mem_children, show p.tree.node body = _ from bodyShape]
    exact List.mem_cons_self ..
  have inSwitch : p.tree.parent? case = some switch := by
    rw [← linked.mem_children, show p.tree.node switch = _ from switchShape]
    exact List.mem_cons_of_mem _ isCase
  have inCase : p.tree.parent? id = some case := linked.mem_children.mp (ends.mem_children isHeld)
  exact linked.isWithin_trans (linked.isWithin_trans (linked.isWithin_of_parent inCase)
    (linked.isWithin_of_parent inSwitch)) (linked.isWithin_of_parent inBody)

end FlatLoop

/-! ### Loops by their depth -/

namespace FlatLoop

open SimplifyM

noncomputable def loopDepths : Weighing Degrees where
  weigh
    | .while_ .., sum => sum + .one (sum.height + 1)
    | _, sum => sum
  le_weigh tag sum := by
    split
    · exact le_add_of_nonneg_right zero_le
    · exact le_rfl
  strictMono tag a b less := by
    dsimp only
    split
    · exact add_lt_add_of_lt_of_le less
        (Degrees.one_mono (Nat.succ_le_succ (Degrees.height_mono less.le)))
    · exact less

theorem sum_lt_of_while {t : Tree} {loop test body : NodeId} (linked : t.Linked)
    (shape : t.node loop = .while_ test body) {ids : List NodeId}
    (inside : ∀ id ∈ ids, t.isWithin id body = true) :
    (ids.map (t.weight loopDepths)).sum < t.weight loopDepths loop := by
  have held : t.parent? body = some loop := by
    rw [← linked.mem_children, shape]
    simp [Node.children]
  have weighs : t.weight loopDepths loop =
      t.weightBelow loopDepths loop + .one ((t.weightBelow loopDepths loop).height + 1) := by
    rw [linked.weight_eq loopDepths (linked.allocated_parent held), shape]
    rfl
  have bodyLe : t.weight loopDepths body ≤ t.weightBelow loopDepths loop :=
    Tree.le_sum_of_mem (List.mem_map_of_mem (linked.mem_children.mpr held))
  have below : (ids.map (t.weight loopDepths)).sum.height ≤
      (t.weightBelow loopDepths loop).height := by
    refine Degrees.height_sum_le fun a member => ?_
    obtain ⟨id, isInside, rfl⟩ := List.mem_map.mp member
    exact Degrees.height_mono ((linked.weight_le_of_isWithin loopDepths
      (Tree.allocated_of_parent? held) (inside id isInside)).trans bodyLe)
  rw [weighs]
  exact (Degrees.lt_one (Nat.lt_succ_of_le below)).trans_le (le_add_of_nonneg_left zero_le)

variable {p : Program}

theorem lightens (steady : p.Steady) :
    Surely p run fun changed q => True ∧ p.Lightens loopDepths changed q := by
  refine .visit (fun _ => True) steady trivial fun loop q steady _ _ _ attached => .program ?_
  split
  · exact .pure steady ⟨trivial, .refl q⟩
  · rename_i statements count planned
    obtain ⟨test, body, shape, inside⟩ := isWithin_of_plan? steady.linked planned
    have held : q.tree.parent? body = some loop := by
      rw [← steady.linked.mem_children, shape]
      simp [Node.children]
    have copies (statement : NodeId) (member : statement ∈ statements) :=
      Tree.adds_copy (W := loopDepths) steady.linked statement
        (steady.linked.allocated_of_isWithin (inside statement member)
          (Tree.allocated_of_parent? held))
    have adds : q.tree.Adds loopDepths [] Tree.piece
        (do Tree.alloc (.block (← statements.mapM Tree.copy)))
          (0 + (statements.map (q.tree.weight loopDepths)).sum) :=
      .bind (.mapM statements copies) fun body =>
        Tree.adds_alloc (.block body) (by simp [Node.part]) fun sum => (zero_add sum).ge
    refine .mono (Surely.exchange (J := fun _ _ => True) steady adds
      (.of_isPlain steady ?_) attached (steady.ne_root fun body same => ?_)
        fun piece r steady free allocated possible => ?_) ?_
    · rw [show q.node loop = .while_ test body from shape]
      rfl
    · rw [show q.node loop = .while_ test _ from shape] at same
      cases same
    · refine .bind (Surely.replace steady free allocated possible)
        fun placed _ steady _ replaced => ?_
      exact .bind (.record _ _ _ steady)
        fun _ _ steady _ same => .pure steady ⟨same ▸ replaced, trivial⟩
    · refine fun _ _ exchanged => ⟨trivial, exchanged.1.lightens steady ?_⟩
      rw [zero_add]
      exact sum_lt_of_while steady.linked shape inside

end FlatLoop

end Unravel
