import Mathlib.Tactic.CasesM
import Unravel.Syntax.Node

/-!
A node seen as its tag together with its parts. The tag is everything but the children; a part
lists the children that stand in one kind of place, such as the targets of a pattern.

Main statements: `Node.replaceChild?` and `Node.detachChild?` keep the tag and act on every part
alike (`Node.Swapped`), so that a property of trees that is read off tags and parts need not
look at the kinds of nodes again when a child is exchanged.

The slots of a node. Its lists and its optional fields hold some of the children (`Node.lists`,
`Node.fields`), a child in one of them can be taken out, and what takes the place of a child gets
its slot (`Node.slotOf_map`).

Main statement: what a node says about a slot, what it lets be taken out or replaced, and what its
children are then, all agree (`Node.slots_agree`).
-/

namespace Unravel

/-- A kind of place a child can have in its parent. -/
inductive Part where
  | declarators
  | target
  | name
  | params
  | pattern
  | label
  | written
  | discriminant
deriving DecidableEq

/-- What becomes of one child when `old` is exchanged for `new` or taken out. -/
def swap {α : Type} [DecidableEq α] (old : α) (new : Option α) (child : α) : List α :=
  if child = old then new.toList else [child]

section Swap

variable {α : Type} [DecidableEq α] {old child : α} {new : Option α} {l : List α}

@[simp] theorem swap_self : swap old new old = new.toList := by simp [swap]

theorem swap_of_ne (different : child ≠ old) : swap old new child = [child] := by
  simp [swap, different]

theorem flatMap_swap_of_notMem (absent : old ∉ l) : l.flatMap (swap old new) = l := by
  induction l with
  | nil => rfl
  | cons head tail induction =>
    rw [List.mem_cons, not_or] at absent
    rw [List.flatMap_cons, induction absent.2, swap_of_ne (Ne.symm absent.1)]
    rfl

/-- Every member of an exchanged list is an old member other than `old`, or `new`. -/
theorem mem_flatMap_swap :
    child ∈ l.flatMap (swap old new) ↔
      (child ∈ l ∧ child ≠ old) ∨ (old ∈ l ∧ some child = new) := by
  simp only [List.mem_flatMap]
  constructor
  · rintro ⟨source, member, produced⟩
    by_cases same : source = old
    · subst same
      rw [swap_self, Option.mem_toList] at produced
      exact .inr ⟨member, produced.symm⟩
    · rw [swap_of_ne same, List.mem_singleton] at produced
      subst produced
      exact .inl ⟨member, same⟩
  · rintro (⟨member, different⟩ | ⟨member, rfl⟩)
    · exact ⟨child, member, by simp [swap_of_ne different]⟩
    · exact ⟨old, member, by simp⟩

theorem map_eq_flatMap_swap (new : α) :
    (l.map fun child => if child = old then new else child) = l.flatMap (swap old (some new)) := by
  rw [← List.flatMap_singleton' (l.map _), List.flatMap_map]
  congr 1
  funext child
  by_cases same : child = old <;> simp [swap, same]

theorem erase_eq_flatMap_swap (distinct : l.Nodup) :
    l.erase old = l.flatMap (swap old none) := by
  rw [distinct.erase_eq_filter]
  induction l with
  | nil => rfl
  | cons head tail induction =>
    rw [List.nodup_cons] at distinct
    rw [List.flatMap_cons, ← induction distinct.2]
    by_cases same : head = old <;> simp [swap, same]

theorem nodup_flatMap_swap (distinct : l.Nodup) (fresh : ∀ child, new = some child → child ∉ l) :
    (l.flatMap (swap old new)).Nodup := by
  induction l with
  | nil => simp
  | cons head tail induction =>
    rw [List.nodup_cons] at distinct
    have freshTail : ∀ child, new = some child → child ∉ tail := fun child isNew member =>
      fresh child isNew (List.mem_cons_of_mem _ member)
    rw [List.flatMap_cons, List.nodup_append]
    refine ⟨?_, induction distinct.2 freshTail, ?_⟩
    · by_cases same : head = old
      · subst same
        cases new <;> simp
      · simp [swap_of_ne same]
    · rintro left fromHead right fromTail rfl
      rw [mem_flatMap_swap] at fromTail
      by_cases same : head = old
      · subst same
        rw [swap_self, Option.mem_toList] at fromHead
        rcases fromTail with ⟨member, -⟩ | ⟨member, -⟩
        · exact freshTail left fromHead member
        · exact distinct.1 member
      · rw [swap_of_ne same, List.mem_singleton] at fromHead
        subst fromHead
        rcases fromTail with ⟨member, -⟩ | ⟨-, isNew⟩
        · exact distinct.1 member
        · exact fresh left isNew.symm (List.mem_cons_self ..)

theorem filter_flatMap_swap {β : Type} {before after : α → List β} {keep keepAfter : β → Bool}
    (same : ∀ child ∈ l, child ≠ old → (after child).filter keepAfter = (before child).filter keep)
    (leaves : (before old).filter keep = [])
    (comes : ∀ child, new = some child → (after child).filter keepAfter = []) :
    ((l.flatMap (swap old new)).flatMap after).filter keepAfter =
      (l.flatMap before).filter keep := by
  rw [List.flatMap_assoc, List.filter_flatMap, List.filter_flatMap, List.flatMap_def,
    List.flatMap_def]
  congr 1
  apply List.map_congr_left
  intro child member
  by_cases isOld : child = old
  · subst isOld
    rw [leaves, swap_self]
    cases new with
    | none => rfl
    | some incoming => simpa using comes incoming rfl
  · rw [swap_of_ne isOld]
    simpa using same child member isOld

end Swap

namespace Node

variable {α β : Type}

/-- The node without its children. -/
def tag : Node α → Node Unit
  | program _ => program []
  | expressionStatement _ => expressionStatement ()
  | variableDeclaration kind _ => variableDeclaration kind []
  | variableDeclarator _ _ => variableDeclarator () none
  | function f => function ⟨f.kind, none, [], (), f.isGenerator, f.isAsync⟩
  | classDef c => classDef ⟨none, none, [], c.isDeclaration⟩
  | classMethod kind _ _ isStatic => classMethod kind () () isStatic
  | block _ => block []
  | return_ _ => return_ none
  | if_ _ _ _ => if_ () () none
  | while_ _ _ => while_ () ()
  | for_ _ _ _ _ => for_ none none none ()
  | switch _ _ => switch () []
  | switchCase _ _ => switchCase none []
  | break_ => break_
  | continue_ => continue_
  | empty => empty
  | assignmentPattern _ _ => assignmentPattern () ()
  | restElement _ => restElement ()
  | arrayPattern _ => arrayPattern []
  | identifier name => identifier name
  | literal value => literal value
  | this_ => this_
  | array _ => array []
  | object _ => object []
  | property _ _ computed => property () () computed
  | call _ _ => call () []
  | new _ _ => new () []
  | member _ _ computed => member () () computed
  | unary operator _ => unary operator ()
  | update operator leading _ => update operator leading ()
  | binary operator _ _ => binary operator () ()
  | logical operator _ _ => logical operator () ()
  | assignment operator _ _ => assignment operator () ()
  | conditional _ _ _ => conditional () () ()
  | sequence _ => sequence []

/-- The children in one kind of place. -/
def part : Part → Node α → List α
  | .declarators, variableDeclaration _ declarations => declarations
  | .target, variableDeclarator target _ => [target]
  | .name, function f => f.name.toList
  | .name, classDef c => c.name.toList
  | .params, function f => f.params
  | .pattern, assignmentPattern left _ => [left]
  | .pattern, restElement argument => [argument]
  | .pattern, arrayPattern elements => elements
  | .label, member _ key false => [key]
  | .label, property key _ false => [key]
  | .label, classMethod _ key _ _ => [key]
  | .written, assignment _ left _ => [left]
  | .discriminant, switch discriminant _ => [discriminant]
  | _, _ => []

theorem mem_children_of_mem_part {part : Part} {n : Node α} {child : α}
    (member : child ∈ n.part part) : child ∈ n.children := by
  unfold Node.part at member
  split at member <;> simp_all [children]

@[simp] theorem tag_map (f : α → β) (n : Node α) : (n.map f).tag = n.tag := by
  cases n <;> rfl

theorem part_map (f : α → β) (part : Part) (n : Node α) :
    (n.map f).part part = (n.part part).map f := by
  have ofOption (o : Option α) : (o.map f).toList = o.toList.map f := by cases o <;> rfl
  cases part <;> cases n <;>
    simp [map, traverse, Node.part, run_mapM_option, ofOption] <;>
    rename_i computed <;> cases computed <;> rfl

theorem map_congr_of_children {β : Type} {f g : α → β} {n : Node α}
    (same : ∀ child ∈ n.children, f child = g child) : n.map f = n.map g := by
  have ofOption {o : Option α} (same : ∀ child, o = some child → f child = g child) :
      o.map f = o.map g :=
    Option.map_congr same
  cases n <;> simp_all [map, traverse, children, run_mapM_option]

theorem map_map {β γ : Type} (f : α → β) (g : β → γ) (n : Node α) :
    (n.map f).map g = n.map fun child => g (f child) := by
  cases n <;> simp [map, traverse, run_mapM_option, Function.comp_def]

theorem map_self (n : Node α) : (n.map fun child => child) = n := by
  have ofOption (o : Option α) : (o.mapM fun child => (pure child : Id α)).run = o := by
    cases o <;> rfl
  cases n <;> simp [map, traverse, ofOption]

/-! What depends on the tag alone. -/

theorem identifier?_tag (n : Node α) : n.tag.identifier? = n.identifier? := by cases n <;> rfl

theorem isStatement_tag (n : Node α) : n.tag.isStatement = n.isStatement := by cases n <;> rfl

theorem isFunction_tag (n : Node α) : n.tag.isFunction = n.isFunction := by cases n <;> rfl

theorem exists_call_of_tag {n : Node α} {n' : Node β} {callee : β} {arguments : List β}
    (same : n'.tag = n.tag) (shape : n' = .call callee arguments) :
    ∃ callee arguments, n = .call callee arguments := by
  subst shape
  cases n with
  | call callee arguments => exact ⟨callee, arguments, rfl⟩
  | _ => cases same

theorem exists_expressionStatement_of_tag {n n' : Node α} {expression : α} (same : n'.tag = n.tag)
    (shape : n' = .expressionStatement expression) :
    ∃ expression, n = .expressionStatement expression := by
  subst shape
  cases n with
  | expressionStatement expression => exact ⟨expression, rfl⟩
  | _ => cases same

theorem exists_object_of_tag {n : Node α} (tag : n.tag = .object []) :
    ∃ properties, n = .object properties := by
  cases n with
  | object properties => exact ⟨properties, rfl⟩
  | _ => cases tag

section Exchange

variable [DecidableEq α]

/-- The first of two children in the place of the second. -/
def exchange (old new child : α) : α := if child = old then new else child

theorem exchange_of_ne {old new child : α} (different : child ≠ old) :
    exchange old new child = child := if_neg different

theorem map_exchange_of_notMem {old new : α} {l : List α} (absent : old ∉ l) :
    l.map (exchange old new) = l := by
  induction l with
  | nil => rfl
  | cons head tail induction =>
    rw [List.mem_cons, not_or] at absent
    rw [List.map_cons, induction absent.2, exchange_of_ne (Ne.symm absent.1)]

/-- One step of `Node.replaceChild?`: exchanges a child unless that was done before. -/
def exchangeOnce (old new child : α) : StateM Bool α := fun replaced =>
  if !replaced && child = old then (new, true) else (child, replaced)

theorem run_exchangeOnce (old new child : α) (replaced : Bool) :
    ((exchangeOnce old new child).run replaced).run =
      (if replaced then child else exchange old new child, replaced || decide (child = old)) := by
  cases replaced <;> by_cases same : child = old <;>
    simp [exchangeOnce, exchange, StateT.run, Id.run, same]

theorem run_mapM_exchangeOnce (old new : α) (l : List α) (distinct : l.Nodup) (replaced : Bool) :
    ((l.mapM (exchangeOnce old new)).run replaced).run =
      (if replaced then l else l.map (exchange old new), replaced || decide (old ∈ l)) := by
  induction l generalizing replaced with
  | nil => cases replaced <;> rfl
  | cons head tail induction =>
    rw [List.nodup_cons] at distinct
    rw [List.mapM_cons]
    simp only [StateT.run_bind, Id.run_bind, run_exchangeOnce, induction distinct.2,
      StateT.run_pure, Id.run_pure]
    by_cases same : head = old
    · subst same
      cases replaced <;> simp [map_exchange_of_notMem distinct.1]
    · cases replaced <;> simp [same, Ne.symm same]

theorem run_mapM_option_exchangeOnce (old new : α) (o : Option α) (replaced : Bool) :
    ((o.mapM (exchangeOnce old new)).run replaced).run =
      (if replaced then o else o.map (exchange old new), replaced || decide (old ∈ o.toList)) := by
  cases o with
  | none => cases replaced <;> rfl
  | some child =>
    have mapped : (some child).mapM (exchangeOnce old new) = some <$> exchangeOnce old new child :=
      rfl
    simp only [mapped, StateT.run_map, Id.run_map, run_exchangeOnce]
    cases replaced <;> simp [eq_comm]

theorem map_option_exchange_of_ne {old new : α} {o : Option α} (absent : o ≠ some old) :
    o.map (exchange old new) = o := by
  cases o with
  | none => rfl
  | some child => simp_all [exchange]

theorem run_traverse_exchangeOnce (old new : α) (n : Node α) (distinct : n.children.Nodup) :
    ((n.traverse (exchangeOnce old new)).run false).run =
      (n.map (exchange old new), decide (old ∈ n.children)) := by
  cases n with
  | function f =>
    obtain ⟨kind, name, params, body, isGenerator, isAsync⟩ := f
    simp only [children, List.nodup_append, List.mem_append, List.mem_singleton] at distinct
    simp [traverse, map, children, run_exchangeOnce, run_mapM_option_exchangeOnce,
      run_mapM_exchangeOnce, run_mapM_option, distinct]
    grind [exchange, map_exchange_of_notMem]
  | _ =>
    simp only [children, List.nodup_append, List.nodup_cons] at distinct
    simp [traverse, map, children, run_exchangeOnce, run_mapM_option_exchangeOnce,
      run_mapM_exchangeOnce, run_mapM_option, distinct] <;>
    grind [exchange, map_exchange_of_notMem, map_option_exchange_of_ne]

theorem replaceChild?_eq (n : Node α) (old new : α) (distinct : n.children.Nodup) :
    n.replaceChild? old new = if old ∈ n.children then some (n.map (exchange old new))
      else none := by
  have run := run_traverse_exchangeOnce old new n distinct
  change (match ((n.traverse (exchangeOnce old new)).run false).run with
    | (replaced, true) => some replaced
    | (_, false) => none) = _
  rw [run]
  by_cases member : old ∈ n.children <;> simp [member]

/-- The relation between a node and what an exchange of one child makes of it. -/
structure Swapped (old : α) (new : Option α) (before after : Node α) : Prop where
  tag : after.tag = before.tag
  children : after.children = before.children.flatMap (swap old new)
  part : ∀ part, after.part part = (before.part part).flatMap (swap old new)

theorem Swapped.of_notMem {old : α} {new : Option α} {n : Node α} (absent : old ∉ n.children) :
    Swapped old new n n where
  tag := rfl
  children := (flatMap_swap_of_notMem absent).symm
  part _ := (flatMap_swap_of_notMem fun member => absent (mem_children_of_mem_part member)).symm

theorem swapped_of_replaceChild? {n after : Node α} {old new : α} (distinct : n.children.Nodup)
    (replaced : n.replaceChild? old new = some after) : Swapped old (some new) n after := by
  rw [replaceChild?_eq n old new distinct] at replaced
  split at replaced
  · rw [Option.some.injEq] at replaced
    subst replaced
    exact {
      tag := tag_map _ n
      children := (children_map _ n).trans (map_eq_flatMap_swap new)
      part := fun part => (part_map _ part n).trans (map_eq_flatMap_swap new) }
  · cases replaced

theorem toList_flatMap_swap_none {old : α} (field : Option α) (held : field = some old) :
    field.toList.flatMap (swap old none) = [] := by
  subst held
  simp

theorem mem_detachable_of_detachChild? {n after : Node α} {old : α}
    (detached : n.detachChild? old = some after) :
    (∃ items rebuild, (items, rebuild) ∈ n.detachable.1 ∧ old ∈ items ∧
      after = rebuild (items.erase old)) ∨ (some old, after) ∈ n.detachable.2 := by
  rw [detachChild?, Option.orElse_eq_orElse, Option.orElse_eq_or, Option.or_eq_some_iff] at detached
  rcases detached with fromList | ⟨-, fromField⟩
  · obtain ⟨⟨items, rebuild⟩, member, found⟩ := List.exists_of_findSome?_eq_some fromList
    rw [Option.ite_none_right_eq_some, Option.some.injEq] at found
    exact .inl ⟨items, rebuild, member, found.1, found.2.symm⟩
  · obtain ⟨⟨field, without⟩, member, found⟩ := List.exists_of_findSome?_eq_some fromField
    rw [Option.ite_none_right_eq_some, Option.some.injEq] at found
    obtain ⟨rfl, rfl⟩ := found
    exact .inr member

theorem swapped_erase {n : Node α} {old : α} {items : List α} {rebuild : List α → Node α}
    (distinct : n.children.Nodup) (member : (items, rebuild) ∈ n.detachable.1)
    (held : old ∈ items) : Swapped old none n (rebuild (items.erase old)) := by
  cases n <;>
    simp only [detachable, List.mem_cons, List.not_mem_nil, or_false, Prod.mk.injEq] at member
  all_goals
    obtain ⟨rfl, rfl⟩ := member
    simp only [children, List.nodup_append, List.nodup_cons] at distinct
    refine ⟨rfl, ?_, fun part => ?_⟩
    · simp only [children, List.flatMap_append, List.flatMap_cons]
      grind [erase_eq_flatMap_swap, flatMap_swap_of_notMem, swap]
    · cases part <;> simp only [Node.part, List.flatMap_nil, List.flatMap_cons] <;>
      grind [erase_eq_flatMap_swap, flatMap_swap_of_notMem, swap]

theorem swapped_clear {n after : Node α} {old : α} (distinct : n.children.Nodup)
    (member : (some old, after) ∈ n.detachable.2) : Swapped old none n after := by
  cases n
  case' function f => obtain ⟨kind, name, params, body, isGenerator, isAsync⟩ := f
  case' classDef c => obtain ⟨name, superClass, members, isDeclaration⟩ := c
  all_goals
    simp only [detachable, List.mem_cons, List.not_mem_nil, or_false, Prod.mk.injEq] at member
  all_goals
    simp only [children, List.nodup_append, List.nodup_cons, Option.mem_toList] at distinct
    casesm* _ ∨ _, _ ∧ _ <;> subst_vars
  all_goals
    refine ⟨rfl, ?_, fun part => ?_⟩
    · simp only [children, List.flatMap_append, List.flatMap_cons]
      grind [toList_flatMap_swap_none, flatMap_swap_of_notMem, swap]
    · cases part <;> simp only [Node.part, List.flatMap_nil] <;>
      grind [toList_flatMap_swap_none, flatMap_swap_of_notMem, swap]

theorem swapped_of_detachChild? {n after : Node α} {old : α} (distinct : n.children.Nodup)
    (detached : n.detachChild? old = some after) : Swapped old none n after := by
  rcases mem_detachable_of_detachChild? detached with ⟨items, rebuild, member, held, rfl⟩ | member
  · exact swapped_erase distinct member held
  · exact swapped_clear distinct member

theorem isSome_detachChild? {n : Node α} {child : α} {slot : Slot}
    (held : n.slotOf child = some slot) (notRequired : slot ≠ .required) :
    (n.detachChild? child).isSome := by
  rw [detachChild?, Option.orElse_eq_orElse, Option.orElse_eq_or, Option.isSome_or, Bool.or_eq_true,
    List.findSome?_isSome_iff, List.findSome?_isSome_iff]
  unfold slotOf at held
  split at held
  · rename_i index found
    obtain ⟨⟨items, rebuild⟩, member, position⟩ := List.exists_of_findSome?_eq_some found
    have inside : child ∈ items := by
      rw [← List.isSome_idxOf?]
      exact Option.isSome_of_eq_some position
    exact .inl ⟨(items, rebuild), member, by simp [inside]⟩
  · split at held
    · rename_i optional
      obtain ⟨⟨field, without⟩, member, same⟩ := List.any_eq_true.mp optional
      exact .inr ⟨(field, without), member, by simpa using same⟩
    · split at held
      · rw [Option.some.injEq] at held
        exact absurd held.symm notRequired
      · cases held

theorem slotOf_ne_required {n : Node α} {child : α} {field : List α × (List α → Node α)}
    (listed : field ∈ n.detachable.1) (member : child ∈ field.1) :
    n.slotOf child ≠ some .required := by
  rw [slotOf]
  split
  · simp
  · rename_i absent
    have nowhere := List.findSome?_eq_none_iff.mp absent field listed
    exact absurd member (List.idxOf?_eq_none_iff.mp nowhere)

theorem isSome_slotOf_of_mem {n : Node α} {child : α} (member : child ∈ n.children) :
    (n.slotOf child).isSome = true := by
  unfold slotOf
  split
  · rfl
  · split
    · rfl
    · rfl

end Exchange

end Node

end Unravel

/-! ### Slots -/

namespace Unravel.Node

variable {α β : Type} {n after : Node α} {child new : α} {target : β} {f : α → β}

def lists (n : Node α) : List (List α) := n.detachable.1.map Prod.fst

/-- The fields that may be empty. -/
def fields (n : Node α) : List (Option α) := n.detachable.2.map Prod.fst

theorem lists_map (f : α → β) (n : Node α) : (n.map f).lists = n.lists.map (List.map f) := by
  cases n <;> simp [map, traverse, lists, detachable]

theorem fields_map (f : α → β) (n : Node α) : (n.map f).fields = n.fields.map (Option.map f) := by
  cases n <;> simp [map, traverse, fields, detachable, run_mapM_option]

theorem mem_children_of_lists {items : List α} (listed : items ∈ n.lists) (member : child ∈ items) :
    child ∈ n.children := by
  cases n <;> simp_all [lists, detachable, children]

theorem mem_children_of_fields (filled : some child ∈ n.fields) : child ∈ n.children := by
  cases n <;> simp_all [fields, detachable, children]
  all_goals grind

variable [DecidableEq α] [DecidableEq β]

theorem slotOf_eq (n : Node α) (child : α) : n.slotOf child =
    match n.lists.findSome? (List.idxOf? child) with
    | some index => some (.list index)
    | none =>
      if some child ∈ n.fields then some .optional
      else if child ∈ n.children then some .required
      else none := by
  rw [slotOf, lists, fields, List.findSome?_map]
  congr 1
  simp only [List.any_eq_true, decide_eq_true_eq, List.mem_map]

theorem idxOf?_map {items : List α} (same : ∀ c ∈ items, f c = target ↔ c = child) :
    (items.map f).idxOf? target = items.idxOf? child := by
  induction items with
  | nil => rfl
  | cons head rest induction =>
    rw [List.forall_mem_cons] at same
    simp only [List.map_cons, List.idxOf?_cons, beq_iff_eq, same.1, induction same.2]

theorem findSome?_idxOf?_map {lists : List (List α)}
    (same : ∀ items ∈ lists, ∀ c ∈ items, f c = target ↔ c = child) :
    (lists.map (List.map f)).findSome? (List.idxOf? target) =
      lists.findSome? (List.idxOf? child) := by
  induction lists with
  | nil => rfl
  | cons head rest induction =>
    rw [List.forall_mem_cons] at same
    simp only [List.map_cons, List.findSome?_cons, idxOf?_map same.1, induction same.2]

theorem slotOf_map (same : ∀ c ∈ n.children, f c = target ↔ c = child) :
    (n.map f).slotOf target = n.slotOf child := by
  have positions : (n.map f).lists.findSome? (List.idxOf? target) =
      n.lists.findSome? (List.idxOf? child) := by
    rw [lists_map]
    apply findSome?_idxOf?_map
    intro items listed c member
    exact same c (mem_children_of_lists listed member)
  have filled : some target ∈ (n.map f).fields ↔ some child ∈ n.fields := by
    simp only [fields_map, List.mem_map, Option.map_eq_some_iff]
    constructor
    · rintro ⟨field, member, c, rfl, isTarget⟩
      exact (same c (mem_children_of_fields member)).mp isTarget ▸ member
    · intro member
      exact ⟨some child, member, child, rfl, (same child (mem_children_of_fields member)).mpr rfl⟩
  have held : target ∈ (n.map f).children ↔ child ∈ n.children := by
    rw [children_map, List.mem_map]
    constructor
    · rintro ⟨c, member, isTarget⟩
      exact (same c member).mp isTarget ▸ member
    · intro member
      exact ⟨child, member, (same child member).mpr rfl⟩
  simp only [slotOf_eq, positions, filled, held]

theorem slotOf_eq_none_iff : n.slotOf child = none ↔ child ∉ n.children := by
  constructor
  · intro nowhere member
    have found := isSome_slotOf_of_mem member
    rw [nowhere] at found
    cases found
  · intro absent
    have unlisted : n.lists.findSome? (List.idxOf? child) = none := by
      apply List.findSome?_eq_none_iff.mpr
      intro items listed
      exact List.idxOf?_eq_none_iff.mpr fun member => absent (mem_children_of_lists listed member)
    rw [slotOf_eq, unlisted]
    simp only [mt mem_children_of_fields absent, absent, if_false]

theorem isSome_detachChild?_iff : (n.detachChild? child).isSome = true ↔
    n.slotOf child = some .optional ∨ ∃ index, n.slotOf child = some (.list index) := by
  constructor
  · intro detached
    obtain ⟨after, detached⟩ := Option.isSome_iff_exists.mp detached
    rw [slotOf_eq]
    cases position : n.lists.findSome? (List.idxOf? child) with
    | some index => exact .inr ⟨index, rfl⟩
    | none =>
      rcases mem_detachable_of_detachChild? detached with ⟨items, rebuild, member, held, -⟩ | member
      · have listed : items ∈ n.lists := List.mem_map_of_mem (f := Prod.fst) member
        exact absurd held
          (List.idxOf?_eq_none_iff.mp (List.findSome?_eq_none_iff.mp position items listed))
      · have filled : some child ∈ n.fields := List.mem_map_of_mem (f := Prod.fst) member
        exact .inl (if_pos filled)
  · rintro (held | ⟨index, held⟩) <;> exact isSome_detachChild? held (by simp)

theorem children_of_detachChild? (distinct : n.children.Nodup)
    (detached : n.detachChild? child = some after) :
    after.children = n.children.erase child :=
  (swapped_of_detachChild? distinct detached).children.trans (erase_eq_flatMap_swap distinct).symm

theorem replaceChild?_spec (distinct : n.children.Nodup) (isNew : new ∉ n.children) :
    ((n.replaceChild? child new).isSome = true ↔ child ∈ n.children) ∧
    ∀ after, n.replaceChild? child new = some after →
      after.children = n.children.map (exchange child new) ∧ after.slotOf new = n.slotOf child := by
  rw [replaceChild?_eq n child new distinct]
  constructor
  · simp
  · intro after replaced
    obtain ⟨-, isAfter⟩ := Option.ite_none_right_eq_some.mp replaced
    cases isAfter
    refine ⟨children_map .., slotOf_map fun c member => ?_⟩
    have different : c ≠ new := fun same => isNew (same ▸ member)
    unfold exchange
    split <;> simp_all

theorem notMem_of_detachChild? (distinct : n.children.Nodup)
    (detached : n.detachChild? child = some after) :
    child ∉ after.children := by
  rw [children_of_detachChild? distinct detached]
  exact distinct.not_mem_erase

theorem mem_of_detachChild? (detached : (n.detachChild? child).isSome = true) :
    child ∈ n.children := by
  apply Decidable.byContradiction
  intro absent
  have nowhere := slotOf_eq_none_iff.mpr absent
  rcases isSome_detachChild?_iff.mp detached with held | ⟨index, held⟩ <;>
    cases nowhere.symm.trans held

omit [DecidableEq α] in
theorem getD_eq_iff {result : Option (Node α)}
    (differs : ∀ after, result = some after → after ≠ n) :
    result.getD n = n ↔ result.isSome = false := by
  cases result with
  | none => simp
  | some after => simpa using differs after rfl

/-- What a node says of its slots agrees with what it lets be taken out or replaced and with the
children that it has then. A node is left as it is where nothing is taken out or replaced, and only
there. -/
theorem slots_agree (n : Node α) (distinct : n.children.Nodup) (child : α) :
    (n.slotOf child = none ↔ child ∉ n.children) ∧
    ((n.detachChild? child).isSome = true ↔
      n.slotOf child = some .optional ∨ ∃ index, n.slotOf child = some (.list index)) ∧
    (∀ after, n.detachChild? child = some after → after.children = n.children.erase child) ∧
    ((n.detachChild? child).getD n = n ↔ (n.detachChild? child).isSome = false) ∧
    ∀ new ∉ n.children,
      ((n.replaceChild? child new).isSome = true ↔ child ∈ n.children) ∧
      (∀ after, n.replaceChild? child new = some after →
        after.children = n.children.map (fun c => if c = child then new else c) ∧
          after.slotOf new = n.slotOf child) ∧
      ((n.replaceChild? child new).getD n = n ↔ (n.replaceChild? child new).isSome = false) := by
  refine ⟨slotOf_eq_none_iff, isSome_detachChild?_iff,
    fun after => children_of_detachChild? distinct, ?_, ?_⟩
  · apply getD_eq_iff
    intro after detached same
    have member := mem_of_detachChild? (Option.isSome_of_eq_some detached)
    exact notMem_of_detachChild? distinct detached (same ▸ member)
  · intro new isNew
    obtain ⟨replaceable, replaced⟩ := replaceChild?_spec distinct isNew
    refine ⟨replaceable, replaced, getD_eq_iff ?_⟩
    intro after isAfter same
    have member := replaceable.mp (Option.isSome_of_eq_some isAfter)
    apply isNew
    rw [← same, (replaced after isAfter).1]
    exact List.mem_map.mpr ⟨child, member, if_pos rfl⟩

/--
The function `f(a, b) { .. }` of which the name, the parameter `b` and the body are looked at. -/
theorem exists_slots_agree : ∃ n : Node Nat, n.children = [0, 1, 2, 3] ∧ n.children.Nodup ∧
    n.slotOf 0 = some .optional ∧ n.slotOf 2 = some (.list 1) ∧ n.slotOf 3 = some .required ∧
      n.slotOf 4 = none ∧
      (∃ after, n.detachChild? 2 = some after ∧ after.children = [0, 1, 3]) ∧
      n.detachChild? 3 = none ∧
      ∃ after, n.replaceChild? 2 4 = some after ∧ after.children = [0, 1, 4, 3] ∧
        after.slotOf 4 = some (.list 1) := by
  let n : Node Nat := .function ⟨.declaration, some 0, [1, 2], 3, false, false⟩
  have distinct : n.children.Nodup := by decide
  obtain ⟨absent, -, -, -, -⟩ := n.slots_agree distinct 4
  obtain ⟨-, inList, taken, -, replaced⟩ := n.slots_agree distinct 2
  obtain ⟨-, inField, -, -, -⟩ := n.slots_agree distinct 3
  have place : n.slotOf 2 = some (.list 1) := by decide
  have body : n.slotOf 3 = some .required := by decide
  obtain ⟨left, isLeft⟩ := Option.isSome_iff_exists.mp (inList.mpr (.inr ⟨1, place⟩))
  obtain ⟨isMember, put, -⟩ := replaced 4 (by decide)
  obtain ⟨after, isAfter⟩ := Option.isSome_iff_exists.mp (isMember.mpr (by decide))
  obtain ⟨children, slot⟩ := put after isAfter
  have refused : n.detachChild? 3 = none := by
    rw [← Option.not_isSome_iff_eq_none, inField, body]
    simp
  exact ⟨n, rfl, distinct, by decide, place, body, absent.mpr (by decide),
    ⟨left, isLeft, taken left isLeft⟩, refused, after, isAfter, children, slot.trans place⟩

end Unravel.Node
