import Unravel.Proofs.Eval.Outside
import Unravel.Proofs.Simplify.FlatLoop
import Unravel.Proofs.Simplify.Placing
import Unravel.Proofs.Simplify.Rules

/-!
The rules that place statements: a branch in the place of a choice, the cases of a flattened loop in
the place of the loop, and a class in the place of a function. No jump that did not go out of what
leaves goes out of what comes in.
-/

namespace Unravel

namespace Program

variable {o p q : Program} {aim : Aim} {t mid : Tree} {held : List NodeId}
  {id origin branch : NodeId} {j : Jump}

def IsClause (aim : Aim) (t : Tree) (id : NodeId) : Prop :=
  ((t.node id).isOperand = true ∨ (t.node id).isStatement = true) ∧
  (aim = .jumps → ∀ j, ¬t.JumpsOut j id)

theorem lasting_isClause : Lasting (IsClause aim) where
  grow linked same isAllocated := by
    rintro ⟨isPart, stay⟩
    refine ⟨?_,
      fun isJumps j jumpsOut => stay isJumps j ((linked.jumpsOut_iff same isAllocated).mp jumpsOut)⟩
    rwa [same isAllocated]
  copy {t _ root _} linked copied := by
    rintro ⟨isPart, stay⟩
    have itself : t.isWithin root root = true := Tree.isWithin_self
    have tag := copied.tag_copy itself
    refine ⟨?_, fun isJumps j jumpsOut => stay isJumps j (copied.jumpsOut linked itself jumpsOut)⟩
    rwa [Node.isOperand_congr tag, Node.isStatement_congr tag]

def IsLike (base : Tree) (origin : NodeId) (t : Tree) (id : NodeId) : Prop :=
  (t.node id).tag = (base.node origin).tag ∧ ∀ j, t.JumpsOut j id → base.JumpsOut j origin

theorem lasting_isLike {base : Tree} : Lasting (IsLike base origin) where
  grow linked same isAllocated := by
    rintro ⟨tag, stay⟩
    exact ⟨by rw [same isAllocated, tag],
      fun j jumpsOut => stay j ((linked.jumpsOut_iff same isAllocated).mp jumpsOut)⟩
  copy linked copied := by
    rintro ⟨tag, stay⟩
    exact ⟨(copied.tag_copy Tree.isWithin_self).trans tag,
      fun j jumpsOut => stay j (copied.jumpsOut linked Tree.isWithin_self jumpsOut)⟩

theorem unordered_parts (o : Program) (aim : Aim) (good : Tree → NodeId → Prop) (t : Tree) :
    Tree.Unordered (o.Parts aim good t) := fun _ _ _ parts same => parts.perm same

theorem yields_block (notNames : aim ≠ .names) (body : List NodeId) :
    Tree.Yields (o.Parts aim (IsClause aim) t) body Tree.piece (Tree.alloc (.block body)) := by
  intro held mid parts
  have linked := parts.assembly.grows.linked
  have allocated {child : NodeId} (member : child ∈ body) : mid.Allocated child :=
    (parts.assembly.loose child (List.mem_append_left held member)).allocated
  have isClause {child : NodeId} (isOther : aim ≠ .links) (member : child ∈ body) :=
    parts.good isOther child (List.mem_append_left held member)
  have shape : (Tree.alloc (.block body) mid).2.node (Tree.alloc (.block body) mid).1 =
      .block body := by
    rw [show (Tree.alloc (.block body) mid).1 = ⟨mid.size⟩ from rfl, Tree.node_alloc, if_pos rfl]
  refine parts.around lasting_isClause (.block body)
    (parts.adopt (.block body) (fun isOther child member => ?_) (fun _ isBoundary => ?_)
      fun isNames => absurd isNames notNames) fun isOther => ⟨?_, fun isJumps j jumpsOut => ?_⟩
  · exact Node.admits_of_holdsStatements rfl (isClause isOther member).1
  · cases isBoundary
  · rw [shape]
    exact .inr rfl
  · cases jumpsOut with
    | here isJump =>
      rw [shape] at isJump
      cases isJump
    | deeper member _ _ jumpsOut =>
      rw [shape] at member
      exact (isClause isOther member).2 isJumps j
        ((linked.jumpsOut_iff Tree.node_alloc_of_allocated (allocated member)).mp jumpsOut)

/-- The parent of a node holds another one in its place. -/
def Puts (p : Program) (target placed : NodeId) (q : Program) : Prop :=
  ∃ parent, p.tree.parent? target = some parent ∧
    q.tree.node parent = (p.tree.node parent).map (Node.exchange target placed)

theorem Puts.of_grown {target placed : NodeId} {grown : Tree}
    (puts : Puts { p with tree := grown } target placed q) (allocated : p.tree.Allocated target)
    (linked : p.tree.Linked) (grows : p.tree.Grows grown) :
    p.Puts target placed q := by
  obtain ⟨parent, held, shape⟩ := puts
  rw [grows.parent? allocated] at held
  exact ⟨parent, held, by rw [shape, grows.node (linked.allocated_parent held)]⟩

section Replacement

variable {known : NodeId → Bool} {target replacement placed : NodeId}

theorem Rooted.puts_of_replace (rooted : p.Rooted) (allocated : p.tree.Allocated replacement)
    (done : p.replace target replacement = .ok (placed, q)) : p.Puts target placed q := by
  obtain ⟨replaceable, isPlaced, attaches⟩ := replace_eq_ok_iff.mp done
  have staging := rooted.staging allocated replaceable
  have attached := replaceable.attached
  rw [isAttached_eq rooted.linked rooted.isTop.top] at attached
  obtain ⟨parent, held, parentAttached⟩ := rooted.linked.exists_parent_of_isWithin attached
    replaceable.notRoot
  have unchanged := staging.unwrapped.unchanged
  have isTree : q.tree = (p.unwrap target replacement).2.tree.replace target placed := by
    rw [(eq_of_fixReferences attaches).1, isPlaced]
    rfl
  refine ⟨parent, held, ?_⟩
  rw [isTree, Tree.node_replace staging.unwrapped.linked ((unchanged.parent? attached).trans held),
    unchanged.node parentAttached]

variable (keeps : p.Keeps known) (allocated : p.tree.Allocated replacement)
  (done : p.replace target replacement = .ok (placed, q))

include keeps allocated done

theorem Keeps.not_jumpsOut_of_replace (stays : ∀ j, ¬p.tree.JumpsOut j replacement) (j : Jump) :
    ¬q.tree.JumpsOut j placed := by
  obtain ⟨isPlaced, result⟩ := keeps.of_replace allocated done
  have edited := result.edited
  rcases unwrap_cases keeps.linked target replacement with
    same | ⟨inner, tree, same, -, block, held, taken, -⟩
  · rw [same] at edited isPlaced
    subst isPlaced
    refine fun jumpsOut => stays j (edited.jumpsOut ?_ jumpsOut)
    rintro n ⟨⟩ jumpsOut
    exact absurd jumpsOut (stays j)
  · rw [same] at edited isPlaced
    subst isPlaced
    -- A jump out of the only statement of a block goes out of the block.
    have inside : ¬tree.JumpsOut j placed := fun jumpsOut =>
      stays j (.deeper (keeps.linked.mem_children.mpr held)
        (by rw [show p.tree.node replacement = _ from block]; rfl)
        (by rw [show p.tree.node replacement = _ from block]; rfl)
        (taken.jumpsOut (by simp) jumpsOut))
    refine fun jumpsOut => inside (edited.jumpsOut ?_ jumpsOut)
    rintro n ⟨⟩ jumpsOut
    exact absurd jumpsOut inside

end Replacement

theorem Orderly.fits_clause {target replacement : NodeId} (here : o.Orderly aim p p)
    (notNames : aim ≠ .names) (isStatement : (p.node target).isStatement = true)
    (allocated : p.tree.Allocated replacement)
    (isNew : aim ≠ .links → ¬o.tree.Allocated replacement)
    (isClause : aim ≠ .links → IsClause aim p.tree replacement) :
    o.Fits aim p target replacement where
  allocated := allocated
  isNew := isNew
  suits isOther := (isClause isOther).1.imp_right fun isPart => ⟨isStatement, isPart⟩
  stay isJumps j jumpsOut :=
    absurd jumpsOut ((isClause (by rintro rfl; cases isJumps)).2 isJumps j)
  free isNames := absurd isNames notNames
  operands isNames := absurd isNames notNames

theorem Orderly.fits_branch {choice copy : NodeId} {grown : Tree} (here : o.Orderly aim p p)
    (notNames : aim ≠ .names) (isHeld : o.Held aim p.tree choice)
    (member : branch ∈ (p.node choice).children)
    (shape : (∃ test consequent alternate, p.node choice = .if_ test consequent alternate) ∨
      ∃ test consequent alternate, p.node choice = .conditional test consequent alternate)
    (parts : o.Parts aim (IsLike p.tree branch) p.tree [copy] grown) :
    o.Fits aim { p with tree := grown } choice copy where
  allocated := (parts.assembly.loose copy (List.mem_singleton_self _)).allocated
  isNew isOther := parts.isNew isOther (List.mem_singleton_self _)
  suits isOther := by
    obtain ⟨tag, -⟩ := parts.good isOther copy (List.mem_singleton_self _)
    have admitted := ((here.neat isOther).tidy.sorted.child (isHeld.owned isOther) member).2
    rw [Tree.Suits, Node.isOperand_congr tag, Node.isStatement_congr tag,
      parts.grown.grows.node isHeld.allocated]
    rcases shape with ⟨test, consequent, alternate, shape⟩ | ⟨test, consequent, alternate, shape⟩
    · rw [show p.tree.node choice = _ from shape] at admitted ⊢
      exact (Node.isOperand_or_isStatement_of_admits admitted rfl).imp_right
        fun isPart => ⟨rfl, isPart⟩
    · rw [show p.tree.node choice = _ from shape] at admitted
      exact .inl (Node.isOperand_of_admits admitted rfl)
  stay isJumps j jumpsOut := by
    have isOther : aim ≠ .links := by rintro rfl; cases isJumps
    obtain ⟨-, stay⟩ := parts.good isOther copy (List.mem_singleton_self _)
    refine (here.rooted.linked.jumpsOut_iff parts.grown.grows.node isHeld.allocated).mpr ?_
    have passes : (p.tree.node choice).catches j = false ∧
        (p.tree.node choice).isFunction = false := by
      rcases shape with ⟨_, _, _, shape⟩ | ⟨_, _, _, shape⟩ <;>
        rw [show p.tree.node choice = _ from shape] <;> cases j <;> exact ⟨rfl, rfl⟩
    exact .deeper member passes.1 passes.2 (stay j jumpsOut)
  free isNames := absurd isNames notNames
  operands isNames := absurd isNames notNames

end Program

open SimplifyM Program

variable {o p q : Program} {aim : Aim}

theorem Branch.orderly (here : o.Orderly aim p p) (notNames : aim ≠ .names) :
    Along (o.Orderly aim) p Branch.run any := by
  have course := Along.course o aim
  refine .visit course here fun id q leads _ _ attached => .program ?_
  have here := leads.stay
  have linked := here.rooted.linked
  split
  · exact .pure here trivial
  · rename_i plan planned
    have recorded {r : Program} (leads : o.Orderly aim r r) (message : String) :
        Along (o.Orderly aim) r (do record .branchPruned id message; return true) any :=
      .thenReturn course (.record _ _ _ leads)
    refine .snippet fun test => ?_
    split
    · rename_i branch taken
      obtain ⟨member, shape⟩ := Branch.choice_of_plan? planned taken
      have isHeld := here.held_of_isAttached attached
      have source : o.Source aim (IsLike q.tree branch) q.tree branch :=
        ⟨here.held_child isHeld member, fun _ => ⟨rfl, fun _ jumpsOut => jumpsOut⟩⟩
      refine .bind course (.build here (yields_copy linked lasting_isLike source))
        fun copy r leads made => ?_
      obtain ⟨grown, rfl, parts⟩ := made
      have fits := here.fits_branch notNames isHeld member shape parts
      exact .bind course (.discardReplace leads.stay fits) fun _ _ leads _ => recorded leads.stay _
    · exact .bind course (.remove here fun isNames => absurd isNames notNames)
        fun _ _ leads _ => recorded leads.stay _

theorem FlatLoop.orderly_step {loop : NodeId} (here : o.Orderly aim p p) (notNames : aim ≠ .names)
    (attached : p.isAttached loop = true) :
    Along (o.Orderly aim) p (FlatLoop.step loop) fun changed q =>
      changed = true → aim = .jumps →
      ∃ placed, p.Puts loop placed q ∧ ∀ j, ¬q.tree.JumpsOut j placed := by
  have course := Along.course o aim
  refine .program ?_
  have linked := here.rooted.linked
  split
  · exact .pure here nofun
  · rename_i statements count planned
    obtain ⟨test, body, switch, tail, discriminant, cases, loopShape, bodyShape,
      switchShape, taken⟩ :=
        FlatLoop.shape_of_plan? linked planned
    have heldBody := here.held_child (here.held_of_isAttached attached) (c := body) (by
      rw [loopShape]
      simp [Node.children])
    have heldSwitch := here.held_child heldBody (c := switch) (by
      rw [bodyShape]
      exact List.mem_cons_self ..)
    have source {statement : NodeId} (member : statement ∈ statements) :
        o.Source aim (IsClause aim) p.tree statement := by
      obtain ⟨case, isCase, isHeld, ends⟩ := taken statement member
      have heldCase := here.held_child heldSwitch (c := case) (by
        rw [switchShape]
        exact List.mem_cons_of_mem _ isCase)
      have isChild := ends.mem_children isHeld
      obtain ⟨_, _, caseShape, -, stays⟩ := ends
      refine ⟨here.held_child heldCase isChild,
        fun isOther => ⟨?_, fun _ => stays statement isHeld⟩⟩
      have admitted := ((here.neat isOther).tidy.sorted.child (heldCase.owned isOther) isChild).2
      rw [show p.tree.node case = _ from caseShape] at admitted
      exact Node.isOperand_or_isStatement_of_admits admitted rfl
    have yields : Tree.Yields (o.Parts aim (IsClause aim) p.tree) [] Tree.piece
        (do Tree.alloc (.block (← statements.mapM Tree.copy)) : StateM Tree NodeId) :=
      .bind (.mapM (unordered_parts ..) statements fun statement member =>
        yields_copy linked lasting_isClause (source member)) fun body => yields_block notNames body
    refine .bind course (.build here yields) fun block q leads made => ?_
    obtain ⟨grown, rfl, parts⟩ := made
    have isPiece : block ∈ Tree.piece block := List.mem_singleton_self _
    have isStatement : (grown.node loop).isStatement = true := by
      rw [parts.grown.grows.node (here.held_of_isAttached attached).allocated,
        show p.tree.node loop = _ from loopShape]
      rfl
    have fits := leads.stay.fits_clause notNames isStatement
      (parts.assembly.loose block isPiece).allocated (fun isOther => parts.isNew isOther isPiece)
      fun isOther => parts.good isOther block isPiece
    have places : Along (o.Orderly aim) { p with tree := grown } (SimplifyM.replace loop block)
        fun placed q =>
          aim = .jumps → p.Puts loop placed q ∧ ∀ j, ¬q.tree.JumpsOut j placed := by
      refine .edit course leads.stay
        fun placed q done => ⟨leads.stay.replace fits done, fun isJumps => ?_⟩
      have isOther : aim ≠ .links := by rintro rfl; cases isJumps
      obtain ⟨known, keeps⟩ := (leads.neat isOther).keeps
      exact ⟨(keeps.toRooted.puts_of_replace fits.allocated done).of_grown
        (here.held_of_isAttached attached).allocated linked parts.grown.grows,
        keeps.not_jumpsOut_of_replace fits.allocated done
          ((parts.good isOther block isPiece).2 isJumps)⟩
    refine .bind course places fun placed q leads puts => ?_
    refine .bind course (.record _ _ _ leads.stay) fun _ r leads same => ?_
    exact .pure leads.stay fun _ isJumps => same ▸ ⟨placed, puts isJumps⟩

theorem FlatLoop.orderly (here : o.Orderly aim p p) (notNames : aim ≠ .names) :
    Along (o.Orderly aim) p FlatLoop.run any :=
  .visit (Along.course o aim) here fun _ _ leads _ _ attached =>
    (FlatLoop.orderly_step leads.stay notNames attached).toAny

/-! ### Classes -/

def Program.IsClass (t : Tree) (id : NodeId) :
    Prop := ∃ c, (t.node id) = .classDef c ∧ c.isDeclaration = true

theorem Tree.Sorted.isClause_of_isClass {t : Tree} {own : NodeId → Prop} {id : NodeId}
    (sorted : t.Sorted own) (isOwn : own id) (isClass : IsClass t id) : IsClause aim t id := by
  obtain ⟨c, shape, isDeclaration⟩ := isClass
  refine ⟨.inr (by rw [shape]; exact isDeclaration), fun _ j jumpsOut => ?_⟩
  cases jumpsOut with
  | here isJump =>
    rw [shape] at isJump
    cases isJump
  | deeper member _ _ jumpsOut =>
    exact sorted.not_jumpsOut_of_isOperand (sorted.child isOwn member).1
      (sorted.isOperand_child isOwn member (by rw [shape]; rfl)) jumpsOut

theorem ClassForm.turns_classOf {t : Tree} (linked : t.Linked) (notNames : aim ≠ .names)
    (f : Function NodeId) (name : String) (methods : List ClassForm.Method)
    (clauses : ∀ child ∈ f.params ++ [f.body], o.Source aim (IsClause aim) t child)
    (operands : ∀ method ∈ methods, o.Source aim IsOperand t method.function) :
    Tree.Turns (o.Parts aim (IsClause aim) t) (o.Parts aim IsClass t) [] Tree.piece
      (ClassForm.classOf f name methods) := by
  have shop := workshop_parts o aim t
  have unordered := unordered_parts o aim (IsClause aim) t
  have params : Tree.Yields (o.Parts aim (IsClause aim) t) [] (fun made => made)
      (f.params.mapM Tree.copy) :=
    .mapM unordered f.params fun param member =>
      yields_copy linked lasting_isClause (clauses param (List.mem_append_left _ member))
  have body : Tree.Yields (o.Parts aim (IsClause aim) t) [] Tree.piece (Tree.copy f.body) :=
    yields_copy linked lasting_isClause (clauses f.body (by simp))
  have others : Tree.Yields (o.Parts aim IsOperand t) [] (fun made => made)
      (methods.mapM fun method => do
      Tree.memberFunction .method method.name (← Tree.copy method.function)) :=
    shop.mapM methods
      fun method member => .bind (yields_copy linked lasting_isOperand (operands method member))
        fun copy => shop.memberFunction .method method.name copy
  have function (params : List NodeId) (body : NodeId) :
      Tree.Turns (o.Parts aim (IsClause aim) t) (o.Parts aim IsOperand t)
        (Tree.piece body ++ params) Tree.piece
          (Tree.alloc (.function ⟨.expression, none, params, body, false, false⟩)) := by
    intro mid parts
    let node : Node NodeId := .function ⟨.expression, none, params, body, false, false⟩
    have children : (Tree.piece body ++ params).Perm (node.children ++ []) := by
      rw [List.append_nil]
      exact (List.perm_append_singleton body params).symm
    have ready := parts.perm children
    obtain ⟨assembly, grown⟩ := ready.adopt node
      (fun isOther child member => Node.admits_of_holdsStatements rfl
        (ready.good isOther child (List.mem_append_left _ member)).1)
      (fun isJumps _ child member => (ready.good (by rintro rfl; cases isJumps) child
        (List.mem_append_left _ member)).2 isJumps) fun isNames => absurd isNames notNames
    refine ⟨assembly, grown, parts.known, fun _ => List.forall_mem_singleton.mpr ?_⟩
    rw [IsOperand, show (Tree.alloc node mid).1 = ⟨mid.size⟩ from rfl, Tree.node_alloc, if_pos rfl]
    rfl
  have class_ (label : NodeId) (members : List NodeId) :
      Tree.Turns (o.Parts aim IsOperand t) (o.Parts aim IsClass t) (label :: members) Tree.piece
        (Tree.alloc (.classDef ⟨some label, none, members, true⟩)) := by
    intro mid parts
    let node : Node NodeId := .classDef ⟨some label, none, members, true⟩
    have ready : o.Parts aim IsOperand t (node.children ++ []) mid := by rwa [List.append_nil]
    obtain ⟨assembly, grown⟩ := ready.adopt node
      (fun isOther child member => Node.admits_of_isOperand node
        (ready.good isOther child (List.mem_append_left _ member)))
      (fun _ isBoundary => by cases isBoundary) fun isNames => absurd isNames notNames
    refine ⟨assembly, grown, parts.known, fun _ => List.forall_mem_singleton.mpr ?_⟩
    exact ⟨_,
      by rw [show (Tree.alloc node mid).1 = ⟨mid.size⟩ from rfl, Tree.node_alloc, if_pos rfl], rfl⟩
  refine params.turns.bind
    fun params =>
      (body.frame params).turns.bind
        fun body =>
          (function params body).bind
            fun function =>
              (shop.memberFunction .constructor "constructor" function).turns.bind fun first =>
                (others.frame (Tree.piece first)).turns.bind fun others =>
                  ((shop.identifier name).frame (others ++ Tree.piece first)).turns.bind
                    fun label mid parts => ?_
  exact class_ label (first :: others) mid
    (parts.perm ((List.perm_append_singleton first others).cons label))

theorem ClassForm.orderly (here : o.Orderly aim p p) (notNames : aim ≠ .names) :
    Along (o.Orderly aim) p ClassForm.run any := by
  have course := Along.course o aim
  refine .visit course here fun function q leads _ _ attached => .program (.context fun c => ?_)
  have here := leads.stay
  split
  · exact .pure here trivial
  · rename_i plan planned
    obtain ⟨-, _, _, _, fits⟩ := (ClassForm.plan?_eq_some_iff here.rooted.linked).mp planned
    have shape := fits.shape
    have isStatement : (q.node function).isStatement = true := by
      rw [shape]
      simp [Node.isStatement, fits.isDeclaration]
    have isHeld := here.held_of_isAttached attached
    have clauses : ∀ child ∈ plan.function.params ++ [plan.function.body],
        o.Source aim (IsClause aim) q.tree child := by
      intro child member
      have isChild : child ∈ (q.tree.node function).children := by
        rw [show q.tree.node function = _ from shape]
        simp only [Node.children, List.mem_append] at member ⊢
        tauto
      refine ⟨here.held_child isHeld isChild, fun isOther => ⟨?_, fun isJumps j => ?_⟩⟩
      · have admitted := ((here.neat isOther).tidy.sorted.child (isHeld.owned isOther) isChild).2
        rw [show q.tree.node function = _ from shape] at admitted
        exact Node.isOperand_or_isStatement_of_admits admitted rfl
      · exact (here.calm isJumps).stays (isHeld.owned isOther) (by
          rw [show q.tree.node function = _ from shape]
          rfl) isChild
    have operands : ∀ method ∈ plan.methods, o.Source aim IsOperand q.tree method.function := by
      intro method member
      obtain ⟨_, -, _, _, _, _, assignment, -, -, -, -, assignmentShape, -,
        statementShape, inList⟩ :=
          fits.exists_use member
      have heldList := here.held_of_isAttached (here.rooted.isAttached_parent attached fits.held)
      have heldStatement := here.held_child heldList (here.rooted.linked.mem_children.mpr inList)
      have heldAssignment := here.held_child heldStatement (c := assignment) (by
        rw [statementShape]
        exact List.mem_singleton_self _)
      exact here.operand heldAssignment (by
        rw [assignmentShape]
        exact List.mem_cons_of_mem _ (List.mem_singleton_self _)) (by
        rw [assignmentShape]
        rfl)
    refine .bind course
      (.buildTo here (ClassForm.turns_classOf here.rooted.linked notNames plan.function plan.name
        plan.methods clauses operands)) fun class_ r leads made => ?_
    obtain ⟨grown, rfl, parts⟩ := made
    have isPiece : class_ ∈ Tree.piece class_ := List.mem_singleton_self _
    refine .bind course
      (.forIn course (fun _ => True) leads.stay trivial fun method _ s leads _ => ?_)
      fun _ s further _ => ?_
    · exact .yields course (.remove leads.stay fun isNames => absurd isNames notNames)
        fun _ _ _ _ => trivial
    · have isClause (isOther : aim ≠ .links) : IsClause aim s.tree class_ := by
        obtain ⟨c, isClass, isDeclaration⟩ := parts.good isOther class_ isPiece
        have tag := further.tag (parts.assembly.loose class_ isPiece).allocated
        have same : ∃ d, s.tree.node class_ = .classDef d ∧ d.isDeclaration = true := by
          rw [isClass] at tag
          cases shape : s.tree.node class_ <;> simp_all [Node.tag]
        exact (further.neat isOther).tidy.sorted.isClause_of_isClass
          (.inr (parts.isNew isOther isPiece)) same
      have statement : (s.node function).isStatement = true := by
        rw [Program.node, Node.isStatement_congr ((leads.trans further).tag isHeld.allocated)]
        exact isStatement
      have fits := further.stay.fits_clause notNames statement
        (further.allocated (parts.assembly.loose class_ isPiece).allocated)
          (fun isOther => parts.isNew isOther isPiece) isClause
      exact .bind course (.replace further.stay fits) fun placed _ leads _ =>
        .thenReturn course (.record _ _ _ leads.stay)

end Unravel
