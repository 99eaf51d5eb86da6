import Unravel.Proofs.Syntax.Operand
import Unravel.Proofs.Tree.Linked

/-!
The structured control flow of a function or program: in which orders its nodes can be completed
(`Tree.Path`). What tests answer is left open, so that every real run is among the paths. A function
in it is one node of the path, for its own nodes are run when it is called.
-/

namespace Unravel

/-- How a part is left. A path that ends inside it is cut. -/
inductive Leaving where
  | normally | jump (j : Jump) | return_ | cut
deriving DecidableEq

/-- What is run: a node, two things in turn, something that catches a jump, or a loop of which each
round makes its test, its body and its step. -/
inductive Code where
  | leave (leaving : Leaving)
  | node (id : NodeId)
  | seq (first second : Code)
  | catching (j : Jump) (code : Code)
  | loop (test : List NodeId) (body : NodeId) (step : List NodeId)

namespace Code

def list (ids : List NodeId) :
    Code := ids.foldr (fun id rest => .seq (.node id) rest) (.leave .normally)

/-- The body of a loop, its step and the next rounds. -/
def round (test : List NodeId) (body : NodeId) (step : List NodeId) : Code :=
  .seq (.catching .continue_ (.node body)) (.seq (.list step) (.loop test body step))

/-- The nodes that are run. -/
def nodes : Code → List NodeId
  | .leave _ => []
  | .node id => [id]
  | .seq first second => first.nodes ++ second.nodes
  | .catching _ code => code.nodes
  | .loop test body step => test ++ body :: step

@[simp] theorem nodes_list (ids : List NodeId) : (list ids).nodes = ids := by
  induction ids with
  | nil => rfl
  | cons id rest induction =>
    change id :: (list rest).nodes = _
    rw [induction]

end Code

namespace Tree

variable {t : Tree} {id outer target : NodeId} {code first second : Code} {done : List NodeId}
  {leaving : Leaving}

def caseTest? (t : Tree) (id : NodeId) : Option NodeId :=
  match t.node id with
  | .switchCase test _ => test
  | _ => none

def caseBody (t : Tree) (id : NodeId) : List NodeId :=
  match t.node id with
  | .switchCase _ body => body
  | _ => []

/-- The ways through the cases of a switch statement: the tests up to the one that succeeds and the
bodies from there; or all tests, and the bodies from a case without a test, or none. -/
def throughCases (t : Tree) (cases : List NodeId) : List (List NodeId) :=
  (List.range (cases.length + 1)).map fun entered =>
    let tested := if (cases[entered]?.bind t.caseTest?).isSome then
      cases.take (entered + 1) else cases
    tested.filterMap t.caseTest? ++ (cases.drop entered).flatMap t.caseBody

def codes (t : Tree) (id : NodeId) : List Code :=
  match t.node id with
  | .if_ test consequent alternate => [.list [test, consequent], .list (test :: alternate.toList)]
  | .conditional test consequent alternate => [.list [test, consequent], .list [test, alternate]]
  | .logical _ left right => [.list [left], .list [left, right]]
  | .assignmentPattern left right => [.list [left], .list [right, left]]
  | .variableDeclarator target init => [.list (init.toList ++ [target])]
  | .while_ test body => [.catching .break_ (.loop [test] body [])]
  | .for_ init test step body =>
    [.seq (.list init.toList) (.catching .break_ (.loop test.toList body step.toList))]
  | .switch discriminant cases =>
    (t.throughCases cases).map fun way => .catching .break_ (.list (discriminant :: way))
  | .break_ => [.leave (.jump .break_)]
  | .continue_ => [.leave (.jump .continue_)]
  | .return_ argument => [.seq (.list argument.toList) (.leave .return_)]
  | .function _ => [.leave .normally]
  | node => [.list node.children]

/--
What is run when a scope is entered: the parameters and the body of a function, and else the node
itself. -/
def entry (t : Tree) (owner : NodeId) : Code :=
  match t.node owner with
  | .function f => .list (f.params ++ [f.body])
  | _ => .node owner

/-- A path through something: the nodes that are completed on it, in this order, and how it ends. -/
inductive Path (t : Tree) : Code → List NodeId → Leaving → Prop
  | cut (code : Code) : Path t code [] .cut
  | leave (leaving : Leaving) : Path t (.leave leaving) [] leaving
  | node {id : NodeId} {code : Code} {done : List NodeId} {leaving : Leaving}
      (isWay : code ∈ t.codes id) (path : Path t code done leaving) :
      Path t (.node id) (done ++ if leaving = .normally then [id] else []) leaving
  | seq {first second : Code} {done further : List NodeId} {leaving : Leaving}
      (before : Path t first done .normally) (after : Path t second further leaving) :
      Path t (.seq first second) (done ++ further) leaving
  | left {first second : Code} {done : List NodeId} {leaving : Leaving}
      (before : Path t first done leaving) (early : leaving ≠ .normally) :
      Path t (.seq first second) done leaving
  | catching {j : Jump} {code : Code} {done : List NodeId} {leaving : Leaving}
      (path : Path t code done leaving) :
      Path t (.catching j code) done (if leaving = .jump j then .normally else leaving)
  | tested {test : List NodeId} {body : NodeId} {step done : List NodeId} {leaving : Leaving}
      (path : Path t (.list test) done leaving) : Path t (.loop test body step) done leaving
  | round {test : List NodeId} {body : NodeId} {step done : List NodeId} {leaving : Leaving}
      (path : Path t (.seq (.list test) (.round test body step)) done leaving) :
      Path t (.loop test body step) done leaving

theorem exists_case_of_throughCases {cases way : List NodeId} (isWay : way ∈ t.throughCases cases)
    {part : NodeId} (member : part ∈ way) :
    ∃ case ∈ cases, (t.node case).isCase = true ∧ part ∈ (t.node case).children := by
  obtain ⟨entered, -, rfl⟩ := List.mem_map.mp isWay
  have ofTest {tested : List NodeId} (within : ∀ case ∈ tested, case ∈ cases)
      (isTest : part ∈ tested.filterMap t.caseTest?) :
      ∃ case ∈ cases, (t.node case).isCase = true ∧ part ∈ (t.node case).children := by
    obtain ⟨case, isCase, found⟩ := List.mem_filterMap.mp isTest
    refine ⟨case, within case isCase, ?_⟩
    unfold caseTest? at found
    split at found
    · rename_i shape
      simp [shape, Node.children, Node.isCase, found]
    · cases found
  rcases List.mem_append.mp member with isTest | inBody
  · split at isTest
    · exact ofTest (fun _ => List.mem_of_mem_take) isTest
    · exact ofTest (fun _ isCase => isCase) isTest
  · obtain ⟨case, isCase, isStatement⟩ := List.mem_flatMap.mp inBody
    refine ⟨case, List.mem_of_mem_drop isCase, ?_⟩
    unfold caseBody at isStatement
    split at isStatement
    · rename_i shape
      simp [shape, Node.children, Node.isCase, isStatement]
    · cases isStatement

theorem of_mem_codes (isWay : code ∈ t.codes id) {part : NodeId} (member : part ∈ code.nodes) :
    part ∈ (t.node id).children ∨
      ∃ case ∈ (t.node id).children, (t.node case).isCase = true ∧
        part ∈ (t.node case).children := by
  cases shape : t.node id with
  | switch discriminant cases =>
    simp only [codes, shape, List.mem_map] at isWay
    obtain ⟨way, isWay, rfl⟩ := isWay
    rcases List.mem_cons.mp (Code.nodes_list _ ▸ member) with rfl | member
    · exact .inl (List.mem_cons_self ..)
    · obtain ⟨case, isCase, holds⟩ := exists_case_of_throughCases isWay member
      exact .inr ⟨case, List.mem_cons_of_mem _ isCase, holds⟩
  | _ =>
    refine .inl ?_
    simp only [codes, shape, List.mem_cons, List.not_mem_nil, or_false] at isWay
    rcases isWay with rfl | rfl <;> simp_all [Code.nodes, Node.children] <;> tauto

theorem Linked.isWithin_of_mem_codes (linked : t.Linked) (isWay : code ∈ t.codes id) {part : NodeId}
    (member : part ∈ code.nodes) : t.isWithin part id = true := by
  rcases of_mem_codes isWay member with isChild | ⟨case, isCase, -, isChild⟩
  · exact linked.isWithin_of_parent (linked.mem_children.mp isChild)
  · exact linked.isWithin_trans (linked.isWithin_of_parent (linked.mem_children.mp isChild))
      (linked.isWithin_of_parent (linked.mem_children.mp isCase))

namespace Path

theorem exists_part (linked : t.Linked) (path : t.Path code done leaving) (completed : id ∈ done) :
    ∃ part ∈ code.nodes, t.isWithin id part = true := by
  induction path with
  | cut => cases completed
  | leave => cases completed
  | @node owner code done leaving isWay path induction =>
    refine ⟨owner, List.mem_singleton_self _, ?_⟩
    rcases List.mem_append.mp completed with inner | last
    · obtain ⟨part, member, within⟩ := induction inner
      exact linked.isWithin_trans within (linked.isWithin_of_mem_codes isWay member)
    · split at last
      · rw [List.mem_singleton.mp last]
        exact isWithin_self
      · cases last
  | seq _ _ first second =>
    rcases List.mem_append.mp completed with inFirst | inSecond
    · obtain ⟨part, member, within⟩ := first inFirst
      exact ⟨part, List.mem_append_left _ member, within⟩
    · obtain ⟨part, member, within⟩ := second inSecond
      exact ⟨part, List.mem_append_right _ member, within⟩
  | left _ _ first =>
    obtain ⟨part, member, within⟩ := first completed
    exact ⟨part, List.mem_append_left _ member, within⟩
  | catching _ induction => exact induction completed
  | @tested test body step _ _ _ induction =>
    obtain ⟨part, member, within⟩ := induction completed
    exact ⟨part, List.mem_append_left _ (Code.nodes_list test ▸ member), within⟩
  | @round test body step _ _ _ induction =>
    obtain ⟨part, member, within⟩ := induction completed
    refine ⟨part, ?_, within⟩
    simp only [Code.nodes, Code.round, Code.nodes_list, List.mem_append, List.mem_cons,
      List.not_mem_nil, or_false] at member ⊢
    tauto

theorem split {before after : List NodeId} (path : t.Path (.list (before ++ after)) done leaving) :
    (∃ first rest, done = first ++ rest ∧ t.Path (.list before) first .normally ∧
      t.Path (.list after) rest leaving) ∨
      (t.Path (.list before) done leaving ∧ leaving ≠ .normally) := by
  induction before generalizing done with
  | nil => exact .inl ⟨[], done, rfl, .leave _, path⟩
  | cons id before induction =>
    cases path with
    | cut => exact .inr ⟨.cut _, nofun⟩
    | left head early => exact .inr ⟨.left head early, early⟩
    | seq head others =>
      rcases induction others with ⟨first, rest, rfl, whole, further⟩ | ⟨part, early⟩
      · exact .inl ⟨_, rest, (List.append_assoc ..).symm, .seq head whole, further⟩
      · exact .inr ⟨.seq head part, early⟩

theorem mem_of_normally (path : t.Path (.node id) done .normally) : id ∈ done := by
  cases path with
  | node => simp

theorem exists_of_mem {ids : List NodeId} (path : t.Path (.list ids) done .normally)
    (member : id ∈ ids) :
    ∃ part, t.Path (.node id) part .normally ∧ part ⊆ done := by
  induction ids generalizing done with
  | nil => cases member
  | cons head rest induction =>
    cases path with
    | left _ early => exact absurd rfl early
    | seq first others =>
      rcases List.mem_cons.mp member with rfl | member
      · exact ⟨_, first, List.subset_append_left _ _⟩
      · obtain ⟨part, completes, subset⟩ := induction others member
        exact ⟨part, completes, List.subset_append_of_subset_right _ subset⟩

end Path

end Tree

end Unravel
