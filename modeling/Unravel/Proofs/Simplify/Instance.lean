import Unravel.Proofs.Simplify.Steadily
import Unravel.Simplify.Template

/-!
Instances of an expression: copies of it in which every use of a parameter has become what the
parameter stands for (`Expansion.Instance`).
-/

namespace Unravel

namespace Node

variable {α β : Type}

/-- A node in the likeness of another one, its children given by the other one's. -/
structure Mirrors (f : α → β) (before : Node α) (after : Node β) : Prop where
  tag : after.tag = before.tag
  children : after.children = before.children.map f
  part : ∀ part, after.part part = (before.part part).map f

namespace Mirrors

variable {f g : α → β} {before : Node α} {after last : Node β}

theorem of_map (f : α → β) (n : Node α) : n.Mirrors f (n.map f) :=
  ⟨tag_map f n, children_map f n, fun part => part_map f part n⟩

theorem congr (mirrors : before.Mirrors f after)
    (same : ∀ child ∈ before.children, f child = g child) :
    before.Mirrors g after where
  tag := mirrors.tag
  children := mirrors.children.trans (List.map_congr_left same)
  part part := (mirrors.part part).trans
    (List.map_congr_left fun child held => same child (mem_children_of_mem_part held))

theorem identifier? (mirrors : before.Mirrors f after) :
    after.identifier? = before.identifier? := by
  rw [← Node.identifier?_tag, mirrors.tag, Node.identifier?_tag]

theorem exists_of_call {callee' : β} {arguments' : List β} (mirrors : before.Mirrors f after)
    (shape : after = .call callee' arguments') :
    ∃ callee arguments, before = .call callee arguments ∧ callee' = f callee ∧
      arguments' = arguments.map f := by
  obtain ⟨callee, arguments, rfl⟩ := exists_call_of_tag mirrors.tag shape
  subst shape
  have same := mirrors.children
  rw [Node.children, Node.children, List.map_cons, List.cons.injEq] at same
  exact ⟨callee, arguments, rfl, same⟩

theorem of_swapped [DecidableEq α] {n n' : Node α} {old new : α}
    (swapped : n.Swapped old (some new) n') :
    n.Mirrors (exchange old new) n' where
  tag := swapped.tag
  children := swapped.children.trans (map_eq_flatMap_swap new).symm
  part part := (swapped.part part).trans (map_eq_flatMap_swap new).symm

theorem swapped [DecidableEq β] {old new : β} (mirrors : before.Mirrors f after)
    (swapped : after.Swapped old (some new) last) :
    before.Mirrors (fun child => exchange old new (f child)) last where
  tag := swapped.tag.trans mirrors.tag
  children := by
    rw [swapped.children, ← map_eq_flatMap_swap, mirrors.children, List.map_map]
    rfl
  part part := by
    rw [swapped.part, ← map_eq_flatMap_swap, mirrors.part, List.map_map]
    rfl

end Mirrors

end Node

namespace Tree

variable {t mid after : Tree} {id root old value : NodeId} {held held' : List NodeId}

namespace Building

theorem trans (first : t.Building held mid) (second : mid.Building held' after) :
    t.Building (held' ++ held) after :=
  .of_assembly (first.toAssembly.trans second.toAssembly) second.wellBound

theorem splice (building : t.Building (value :: held) mid) (linked : t.Linked) {parent : NodeId}
    (isHeld : mid.parent? old = some parent) (isNew : ¬t.Allocated old)
    (apart : mid.isWithin old value = false) (free : ¬mid.Binds old)
    (plain : (mid.node old).isDeclarator = false) :
    mid.Edited (mid.replace old value) old (some value) ∧
    t.Building held (mid.replace old value) := by
  obtain ⟨edited, spliced⟩ := building.toAssembly.splice linked isHeld isNew apart
  exact ⟨edited,
    .of_assembly spliced (edited.wellBound (fun _ => free) (fun _ => plain) building.wellBound)⟩

end Building

end Tree

namespace Expansion

variable {e : Expansion} {p : Program} {base base' after last : Tree} {id value : NodeId}
  {uses : NodeId → Option (Param × Nat)}

/-- A node that was not there before. -/
structure New (base after : Tree) (id : NodeId) : Prop where
  isNew : ¬base.Allocated id
  allocated : after.Allocated id

/-- Whether an argument is missing, so that a default value takes its place. -/
def isMissing (e : Expansion) (p : Program) (index : Nat) : Bool :=
  e.arguments[index]?.all fun argument => (p.node argument).isIdentifierNamed "undefined"

/-- What an expression is copied as, node by node. A use of a parameter becomes a copy of the
argument, the name `undefined` without one, an array of copies, or an instance of the default value.
-/
inductive Instance (e : Expansion) (p : Program) (base after : Tree) :
    (NodeId → Option (Param × Nat)) → NodeId → NodeId → Prop where
  | copied {uses : NodeId → Option (Param × Nat)} {id copy : NodeId} (f : NodeId → NodeId)
      (free : uses id = none) (isNew : New base after copy)
      (mirrors : (p.tree.node id).Mirrors f (after.node copy))
      (children : ∀ child ∈ (p.tree.node id).children,
        Instance e p base after uses child (f child)) :
      Instance e p base after uses id copy
  | argument {uses : NodeId → Option (Param × Nat)} {id value argument : NodeId} {use : Param × Nat}
      (isUse : uses id = some use) (form : use.1.form ≠ .rest)
      (given : e.arguments[use.2]? = some argument)
      (copied : Instance e p base after (fun _ => none) argument value) :
      Instance e p base after uses id value
  | missing {uses : NodeId → Option (Param × Nat)} {id value : NodeId} {use : Param × Nat}
      (isUse : uses id = some use) (form : use.1.form = .plain)
      (absent : e.arguments[use.2]? = none) (isNew : New base after value)
      (tag : (after.node value).tag = .identifier "undefined") :
      Instance e p base after uses id value
  | rest {uses : NodeId → Option (Param × Nat)} {id value : NodeId} {use : Param × Nat}
      (original : NodeId → NodeId) (isUse : uses id = some use) (form : use.1.form = .rest)
      (isNew : New base after value) (tag : (after.node value).tag = .array [])
      (given : ∀ element ∈ (after.node value).children, original element ∈ e.arguments)
      (copied : ∀ element ∈ (after.node value).children,
        Instance e p base after (fun _ => none) (original element) element) :
      Instance e p base after uses id value
  | default {uses : NodeId → Option (Param × Nat)} {id value default : NodeId} {use : Param × Nat}
      (isUse : uses id = some use) (isParam : use.1 ∈ e.params)
      (form : use.1.form = .defaulted default) (isMissing : e.isMissing p use.2 = true)
      (expanded : Instance e p base after uses default value) :
      Instance e p base after uses id value

namespace Instance

theorem keep (isInstance : e.Instance p base after uses id value)
    (fewer : ∀ {id}, base'.Allocated id → base.Allocated id)
    (kept : ∀ id, New base after id → last.Allocated id ∧ last.node id = after.node id) :
    e.Instance p base' last uses id value := by
  have stays {id : NodeId} (isNew : New base after id) : New base' last id :=
    ⟨fun allocated => isNew.isNew (fewer allocated), (kept id isNew).1⟩
  induction isInstance with
  | copied f free isNew mirrors _ induction =>
    refine .copied f free (stays isNew) ?_ induction
    rwa [(kept _ isNew).2]
  | argument isUse form given _ induction => exact .argument isUse form given induction
  | missing isUse form absent isNew tag =>
    refine .missing isUse form absent (stays isNew) ?_
    rwa [(kept _ isNew).2]
  | rest original isUse form isNew tag given _ induction =>
    have same := (kept _ isNew).2
    refine .rest original isUse form (stays isNew) (by rwa [same]) (by rwa [same]) ?_
    rw [same]
    exact induction
  | default isUse isParam form isMissing _ induction =>
    exact .default isUse isParam form isMissing induction

theorem isNew (isInstance : e.Instance p base after uses id value) : New base after value := by
  induction isInstance with
  | copied _ _ isNew | missing _ _ _ isNew | rest _ _ _ isNew => exact isNew
  | argument _ _ _ _ induction | default _ _ _ _ _ induction => exact induction

theorem cases_of_use (isInstance : e.Instance p base after uses id value) {use : Param × Nat}
    (isUse : uses id = some use) :
    (∃ argument, use.1.form ≠ .rest ∧ e.arguments[use.2]? = some argument ∧
        e.Instance p base after (fun _ => none) argument value) ∨
      (use.1.form = .plain ∧ e.arguments[use.2]? = none ∧
        (after.node value).tag = .identifier "undefined") ∨
      (use.1.form = .rest ∧ (after.node value).tag = .array []) ∨
      ∃ default, use.1.form = .defaulted default ∧ e.isMissing p use.2 = true ∧
        e.Instance p base after uses default value := by
  cases isInstance with
  | copied _ free => rw [isUse] at free; cases free
  | argument isSame form given copied =>
    rw [isUse, Option.some.injEq] at isSame
    exact .inl ⟨_, isSame ▸ form, isSame ▸ given, copied⟩
  | missing isSame form absent _ tag =>
    rw [isUse, Option.some.injEq] at isSame
    exact .inr (.inl ⟨isSame ▸ form, isSame ▸ absent, tag⟩)
  | rest _ isSame form _ tag =>
    rw [isUse, Option.some.injEq] at isSame
    exact .inr (.inr (.inl ⟨isSame ▸ form, tag⟩))
  | default isSame _ form isMissing expanded =>
    rw [isUse, Option.some.injEq] at isSame
    exact .inr (.inr (.inr ⟨_, isSame ▸ form, isSame ▸ isMissing, expanded⟩))

theorem of_copied {root : NodeId} {copyOf : NodeId → NodeId} (grows : p.tree.Grows base)
    (linked : p.tree.Linked) (allocated : p.tree.Allocated root)
    (copied : base.Copied root copyOf after) :
    e.Instance p base after (fun _ => none) root (copyOf root) := by
  have within (id : NodeId) (isAllocated : p.tree.Allocated id)
      (inside : p.tree.isWithin id root = true) :
      e.Instance p base after (fun _ => none) id (copyOf id) := by
    induction id, isAllocated using linked.induction_children with
    | step id isAllocated induction =>
      have insideBase : base.isWithin id root = true := by rwa [grows.isWithin linked allocated]
      refine .copied copyOf rfl ⟨(copied.new id insideBase).1, (copied.new id insideBase).2⟩ ?_ ?_
      · rw [copied.node id insideBase, grows.node isAllocated]
        exact .of_map copyOf _
      · intro child member
        have held := linked.mem_children.mp member
        exact induction child held (linked.isWithin_trans (linked.isWithin_of_parent held) inside)
  exact within root allocated Tree.isWithin_self

end Instance

end Expansion

end Unravel
