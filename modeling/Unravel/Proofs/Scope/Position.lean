import Unravel.Proofs.Tree.Edit
import Unravel.Scope.Role

/-!
Positions of identifiers. The role of an identifier is read off the tags of the nodes above it
and the places it has in them; identifiers in binding positions are no uses; and a name of a
pattern determines the binding position that declares it.
-/

namespace Unravel

namespace Tree

variable {t after : Tree} {id parent old root : NodeId} {new : Option NodeId}

/-! ### Roles -/

def patternRoleIn (tag : Node Unit) (holds : Part → Bool) (outer : Role) : Role :=
  match tag with
  | .assignmentPattern .. => if holds .pattern then outer else .reference
  | .restElement _ | .arrayPattern _ => outer
  | .assignment .. => if holds .written then .mutation else .declaration
  | _ => .declaration

def roleIn (tag : Node Unit) (holds : Part → Bool) (outer : Role) : Role :=
  match tag with
  | .member .. | .property .. | .classMethod .. => if holds .label then .label else .reference
  | .classDef c =>
    if holds .name then (if c.isDeclaration then .declaration else .label) else .reference
  | .function _ => if holds .name || holds .params then .declaration else .reference
  | .variableDeclarator .. => if holds .target then .declaration else .reference
  | .assignmentPattern .. => if holds .pattern then outer else .reference
  | .restElement _ | .arrayPattern _ => outer
  | .assignment .. => if holds .written then .mutation else .reference
  | .update .. => .referenceAndMutation
  | _ => .reference

/-- Whether a node stands in a kind of place of another one. -/
def holds (t : Tree) (parent child : NodeId) (part : Part) : Bool :=
  child ∈ (t.node parent).part part

theorem patternRole_cons (t : Tree) (pattern parent : NodeId) (outer : List NodeId) :
    t.patternRole pattern (parent :: outer) =
      patternRoleIn (t.node parent).tag (t.holds parent pattern) (t.patternRole parent outer) := by
  cases shape : t.node parent <;>
    simp [patternRole, patternRoleIn, holds, Node.tag, Node.part, shape, @eq_comm _ pattern]

theorem role_of_parent (held : t.parent? id = some parent) :
    t.role id =
      roleIn (t.node parent).tag (t.holds parent id)
        (t.patternRole parent (t.ancestors parent)) := by
  rw [role, held]
  cases shape : t.node parent
  case member base key computed =>
    cases computed <;> simp [roleIn, holds, Node.tag, Node.part, shape, @eq_comm _ id]
  case property key value computed =>
    cases computed <;> simp [roleIn, holds, Node.tag, Node.part, shape, @eq_comm _ id]
  all_goals simp [roleIn, holds, Node.tag, Node.part, shape, @eq_comm _ id]

/-! ### Binding positions -/

/-- The positions whose identifiers declare names: targets of declarators, parameters, names of
functions and classes, and the parts of patterns in such positions. -/
inductive Binds (t : Tree) : NodeId → Prop where
  | place {parent child : NodeId} {part : Part} (isPlace : part ∈ [.target, .name, .params])
      (held : child ∈ (t.node parent).part part) : Binds t child
  | nested {parent child : NodeId} (outer : Binds t parent)
      (held : child ∈ (t.node parent).part .pattern) : Binds t child

theorem place_cases {n : Node NodeId} {part : Part} {child : NodeId}
    (isPlace : part ∈ [.target, .name, .params]) (held : child ∈ n.part part) :
    (∃ init, n = .variableDeclarator child init) ∨
      (∃ f, n = .function f ∧ (f.name = some child ∨ child ∈ f.params)) ∨
      ∃ c, n = .classDef c ∧ c.name = some child := by
  simp only [List.mem_cons, List.not_mem_nil, or_false] at isPlace
  rcases isPlace with rfl | rfl | rfl <;> cases n <;> simp_all [Node.part]

theorem pattern_cases {n : Node NodeId} {child : NodeId} (held : child ∈ n.part .pattern) :
    (∃ right, n = .assignmentPattern child right) ∨ n = .restElement child ∨
      ∃ elements, n = .arrayPattern elements := by
  cases n <;> simp_all [Node.part]

theorem pattern_eq_nil_of_place {n : Node NodeId} {part : Part} {child : NodeId}
    (isPlace : part ∈ [.target, .name, .params]) (held : child ∈ n.part part) :
    n.part .pattern = [] := by
  rcases place_cases isPlace held with ⟨_, rfl⟩ | ⟨_, rfl, -⟩ | ⟨_, rfl, -⟩ <;> rfl

theorem Linked.patternRole_of_mem_pattern (linked : t.Linked)
    (held : id ∈ (t.node parent).part .pattern) :
    t.patternRole id (t.ancestors id) = t.patternRole parent (t.ancestors parent) := by
  have above := linked.mem_children.mp (Node.mem_children_of_mem_part held)
  rw [linked.ancestors_of_parent above, patternRole]
  rcases pattern_cases held with ⟨_, shape⟩ | shape | ⟨_, shape⟩ <;> simp [shape]

theorem Linked.role_of_mem_pattern (linked : t.Linked) (held : id ∈ (t.node parent).part .pattern) :
    t.role id = t.patternRole parent (t.ancestors parent) := by
  have above := linked.mem_children.mp (Node.mem_children_of_mem_part held)
  rw [role, above]
  rcases pattern_cases held with ⟨_, shape⟩ | shape | ⟨_, shape⟩ <;> simp [shape]

theorem Linked.patternRole_of_binds (linked : t.Linked) (binds : t.Binds id) :
    t.patternRole id (t.ancestors id) = .declaration := by
  induction binds with
  | @place parent child part isPlace held =>
    have above := linked.mem_children.mp (Node.mem_children_of_mem_part held)
    rw [linked.ancestors_of_parent above, patternRole]
    rcases place_cases isPlace held with ⟨_, shape⟩ | ⟨_, shape, -⟩ | ⟨_, shape, -⟩ <;> rw [shape]
  | nested outer held induction => exact (linked.patternRole_of_mem_pattern held).trans induction

/--
What binds a name has the role of a declaration. The name of a class expression binds as well, but
it is a label. -/
theorem Linked.role_of_binds (linked : t.Linked) (binds : t.Binds id) : t.role id = .declaration ∨
    t.role id = .label ∧ ∃ parent c, t.parent? id = some parent ∧ t.node parent = .classDef c ∧
      c.isDeclaration = false := by
  cases binds with
  | @place parent _ part isPlace held =>
    have above := linked.mem_children.mp (Node.mem_children_of_mem_part held)
    rw [role, above]
    rcases place_cases isPlace held with ⟨_, shape⟩ | ⟨f, shape, member⟩ | ⟨c, shape, named⟩
    · simp [shape]
    · simp [shape, member]
    · cases declares : c.isDeclaration <;> simp [shape, named, declares]
  | nested outer held =>
    exact .inl ((linked.role_of_mem_pattern held).trans (linked.patternRole_of_binds outer))

theorem Linked.isUse_role_of_binds (linked : t.Linked) (binds : t.Binds id) :
    (t.role id).isUse = false := by
  rcases linked.role_of_binds binds with role | ⟨role, -⟩ <;> rw [role] <;> rfl

/-! ### The names of a pattern -/

theorem Linked.patternNames_eq (linked : t.Linked) (allocated : t.Allocated id) :
    t.patternNames id =
      if (t.node id).isIdentifier then [id]
      else ((t.node id).part .pattern).flatMap t.patternNames := by
  refine linked.walk_eq t.patternNamesWithin (fun id below =>
    if (t.node id).isIdentifier then [id] else ((t.node id).part .pattern).flatMap below)
    (fun limit id => ?_) (fun id f g same => ?_) allocated
  · rw [patternNamesWithin]
    cases shape : t.node id <;> simp [Node.isIdentifier, Node.identifier?, Node.part]
  · have samePart : ((t.node id).part .pattern).flatMap f =
        ((t.node id).part .pattern).flatMap g := by
      rw [List.flatMap_def, List.flatMap_def]
      congr 1
      apply List.map_congr_left
      exact fun child member => same child (Node.mem_children_of_mem_part member)
    rw [samePart]

namespace Linked

variable (linked : t.Linked)

include linked

theorem allocated_of_mem_part {part : Part} {child : NodeId}
    (held : child ∈ (t.node parent).part part) : t.Allocated child :=
  allocated_of_parent? (linked.mem_children.mp (Node.mem_children_of_mem_part held))

theorem parent?_of_mem_part {part : Part} {child : NodeId}
    (held : child ∈ (t.node parent).part part) : t.parent? child = some parent :=
  linked.mem_children.mp (Node.mem_children_of_mem_part held)

theorem isWithin_of_mem_patternNames {name : NodeId} (allocated : t.Allocated id)
    (member : name ∈ t.patternNames id) : t.isWithin name id = true := by
  induction id, allocated using linked.induction_children with
  | step id allocated induction =>
    rw [linked.patternNames_eq allocated] at member
    split at member
    · rw [List.mem_singleton] at member
      rw [member, isWithin_self]
    · obtain ⟨child, held, below⟩ := List.mem_flatMap.mp member
      have above := linked.parent?_of_mem_part held
      exact linked.isWithin_trans (induction child above below) (linked.isWithin_of_parent above)

theorem binds_of_mem_patternNames {name : NodeId} (allocated : t.Allocated id) (binds : t.Binds id)
    (member : name ∈ t.patternNames id) : t.Binds name := by
  induction id, allocated using linked.induction_children with
  | step id allocated induction =>
    rw [linked.patternNames_eq allocated] at member
    split at member
    · rw [List.mem_singleton] at member
      rwa [member]
    · obtain ⟨child, held, below⟩ := List.mem_flatMap.mp member
      exact induction child (linked.parent?_of_mem_part held) (.nested binds held) below

theorem nodup_part (id : NodeId) (part : Part) : ((t.node id).part part).Nodup := by
  have distinct := linked.nodup_children id
  unfold Node.part
  split <;> simp_all [Node.children, List.nodup_append]

theorem nodup_patternNames (allocated : t.Allocated id) : (t.patternNames id).Nodup := by
  induction id, allocated using linked.induction_children with
  | step id allocated induction =>
    rw [linked.patternNames_eq allocated]
    split
    · exact List.nodup_singleton id
    · rw [List.nodup_flatMap]
      refine ⟨fun child held => induction child (linked.parent?_of_mem_part held), ?_⟩
      refine (linked.nodup_part id .pattern).imp_of_mem ?_
      intro a b firstHeld secondHeld different name first second
      have firstAbove := linked.parent?_of_mem_part firstHeld
      have secondAbove := linked.parent?_of_mem_part secondHeld
      exact different (linked.eq_of_isWithin_children firstAbove secondAbove
        (linked.isWithin_of_mem_patternNames (allocated_of_parent? firstAbove) first)
        (linked.isWithin_of_mem_patternNames (allocated_of_parent? secondAbove) second))

theorem mem_pattern_of_between {name middle : NodeId} (allocated : t.Allocated id)
    (member : name ∈ t.patternNames id) (below : t.isWithin name middle = true)
    (inside : t.isWithin middle id = true) (different : middle ≠ id)
    (held : t.parent? middle = some parent) : middle ∈ (t.node parent).part .pattern := by
  induction id, allocated using linked.induction_children with
  | step id allocated induction =>
    rw [linked.patternNames_eq allocated] at member
    split at member
    · rw [List.mem_singleton] at member
      subst member
      exact absurd (linked.isWithin_antisymm inside below) different
    · obtain ⟨child, childHeld, childMember⟩ := List.mem_flatMap.mp member
      have childAbove := linked.parent?_of_mem_part childHeld
      have childBelow :=
        linked.isWithin_of_mem_patternNames (allocated_of_parent? childAbove) childMember
      by_cases same : middle = child
      · subst same
        rw [childAbove, Option.some.injEq] at held
        rwa [← held]
      · rcases linked.isWithin_linear below childBelow with within | within
        · exact induction child childAbove childMember within same
        · rw [linked.isWithin_parent childAbove (Ne.symm same)] at within
          exact absurd (linked.isWithin_antisymm inside within) different

theorem place_unique {name a b aParent bParent : NodeId} {aPart bPart : Part}
    (aPlace : aPart ∈ [.target, .name, .params]) (aHeld : a ∈ (t.node aParent).part aPart)
    (bPlace : bPart ∈ [.target, .name, .params]) (bHeld : b ∈ (t.node bParent).part bPart)
    (first : name ∈ t.patternNames a) (second : name ∈ t.patternNames b) : a = b := by
  have aAbove := linked.parent?_of_mem_part aHeld
  have bAbove := linked.parent?_of_mem_part bHeld
  have aBelow := linked.isWithin_of_mem_patternNames (allocated_of_parent? aAbove) first
  have bBelow := linked.isWithin_of_mem_patternNames (allocated_of_parent? bAbove) second
  by_contra different
  rcases linked.isWithin_linear aBelow bBelow with within | within
  · have nested := linked.mem_pattern_of_between (allocated_of_parent? bAbove) second aBelow within
      different aAbove
    rw [pattern_eq_nil_of_place aPlace aHeld] at nested
    cases nested
  · have nested := linked.mem_pattern_of_between (allocated_of_parent? aAbove) first bBelow within
      (Ne.symm different) bAbove
    rw [pattern_eq_nil_of_place bPlace bHeld] at nested
    cases nested

end Linked

end Tree

end Unravel
