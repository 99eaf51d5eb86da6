import Std.Data.HashMap
import Unravel.Syntax.Term

/-!
The store of syntax nodes. A node refers to its children by handles, each entry remembers the
parent that adopted it, and no entry is ever dropped: a node taken out of the tree keeps its
handle and loses its parent.

`Tree.term` reads a handle through to the closed term it stands for. The walks along parents
and children are bounded by the number of entries, which is more than any path in a tree needs.
-/

namespace Unravel

/-- A handle of a node: its position in the store. -/
structure NodeId where
  index : Nat
deriving DecidableEq, Hashable, Inhabited

def NodeId.label (id : NodeId) : String := "#" ++ toString id.index

structure Entry where
  node : Node NodeId
  parent : Option NodeId
deriving Inhabited

structure Tree where
  entries : Array Entry
deriving Inhabited

namespace Tree

def empty : Tree := ⟨#[]⟩

/-- The number of nodes ever allocated. -/
def size (t : Tree) : Nat := t.entries.size

def isEmpty (t : Tree) : Bool := t.size = 0

/-- The node behind a handle. A handle that was never allocated stands for an empty
statement. -/
def node (t : Tree) (id : NodeId) : Node NodeId :=
  match t.entries[id.index]? with
  | some entry => entry.node
  | none => .empty

/-- The node that holds `id`; roots and detached nodes have none. -/
def parent? (t : Tree) (id : NodeId) : Option NodeId :=
  t.entries[id.index]?.bind (·.parent)

def setParent (t : Tree) (id : NodeId) (parent : Option NodeId) : Tree :=
  ⟨t.entries.modify id.index fun entry => { entry with parent }⟩

def setNode (t : Tree) (id : NodeId) (node : Node NodeId) : Tree :=
  ⟨t.entries.modify id.index fun entry => { entry with node }⟩

def adopt (t : Tree) (parent : NodeId) (children : List NodeId) : Tree :=
  children.foldl (fun t child => t.setParent child (some parent)) t

def alloc (node : Node NodeId) : StateM Tree NodeId := fun t =>
  let id : NodeId := ⟨t.size⟩
  (id, ⟨(t.adopt id node.children).entries.push ⟨node, none⟩⟩)

@[simp] theorem size_setParent (t : Tree) (id : NodeId) (parent : Option NodeId) :
    (t.setParent id parent).size = t.size := by
  simp [setParent, size]

@[simp] theorem node_setParent (t : Tree) (id : NodeId) (parent : Option NodeId)
    (other : NodeId) : (t.setParent id parent).node other = t.node other := by
  unfold setParent node
  grind

theorem parent?_setParent (t : Tree) {id : NodeId} (h : id.index < t.size)
    (parent : Option NodeId) (other : NodeId) :
    (t.setParent id parent).parent? other = if other = id then parent else t.parent? other := by
  cases id
  cases other
  simp only [size] at h
  simp only [setParent, parent?, NodeId.mk.injEq]
  grind

@[simp] theorem size_setNode (t : Tree) (id : NodeId) (node : Node NodeId) :
    (t.setNode id node).size = t.size := by
  simp [setNode, size]

theorem node_setNode (t : Tree) {id : NodeId} (h : id.index < t.size) (node : Node NodeId)
    (other : NodeId) :
    (t.setNode id node).node other = if other = id then node else t.node other := by
  cases id
  cases other
  simp only [size] at h
  simp only [setNode, Tree.node, NodeId.mk.injEq]
  grind

@[simp] theorem parent?_setNode (t : Tree) (id : NodeId) (node : Node NodeId)
    (other : NodeId) : (t.setNode id node).parent? other = t.parent? other := by
  unfold setNode parent?
  grind

@[simp] theorem size_adopt (t : Tree) (parent : NodeId) (children : List NodeId) :
    (t.adopt parent children).size = t.size := by
  induction children generalizing t with
  | nil => rfl
  | cons c cs ih => exact (ih _).trans (size_setParent ..)

@[simp] theorem node_adopt (t : Tree) (parent : NodeId) (children : List NodeId)
    (other : NodeId) : (t.adopt parent children).node other = t.node other := by
  induction children generalizing t with
  | nil => rfl
  | cons c cs ih => exact (ih _).trans (node_setParent ..)

@[simp] theorem size_alloc (node : Node NodeId) (t : Tree) :
    (alloc node t).2.size = t.size + 1 := by
  have := t.size_adopt ⟨t.size⟩ node.children
  simp only [size] at this
  simp [alloc, size, this]

theorem node_alloc (node : Node NodeId) (t : Tree) (other : NodeId) :
    (alloc node t).2.node other = if other = ⟨t.size⟩ then node else t.node other := by
  have adopted := t.size_adopt ⟨t.size⟩ node.children
  have kept := t.node_adopt ⟨t.size⟩ node.children other
  cases other
  simp only [size] at adopted
  simp only [alloc, size, Tree.node, NodeId.mk.injEq] at kept ⊢
  grind

/-- The parent of a node and the way it holds the node. -/
def slot? (t : Tree) (id : NodeId) : Option (NodeId × Slot) := do
  let parent ← t.parent? id
  let slot ← (t.node parent).slotOf id
  return (parent, slot)

/-- At most `limit` strict ancestors, the nearest first. -/
def ancestorsWithin (t : Tree) : Nat → NodeId → List NodeId
  | 0, _ => []
  | limit + 1, id =>
    match t.parent? id with
    | some parent => parent :: t.ancestorsWithin limit parent
    | none => []

/-- The strict ancestors, the nearest first. -/
def ancestors (t : Tree) (id : NodeId) : List NodeId := t.ancestorsWithin t.size id

/-- Whether `outer` is the node itself or one of its ancestors. -/
def isWithin (t : Tree) (id outer : NodeId) : Bool := id = outer || outer ∈ t.ancestors id

/-- The nodes below `id` down to the given number of levels, each before its children. -/
def descendantsWithin (t : Tree) : Nat → NodeId → List NodeId
  | 0, _ => []
  | limit + 1, id => id :: (t.node id).children.flatMap (t.descendantsWithin limit)

/-- The node and everything below it in source order, each node before its children. -/
def descendants (t : Tree) (root : NodeId) : List NodeId := t.descendantsWithin t.size root

/-- The closed term below `id`, cut off after the given number of levels. -/
def termWithin (t : Tree) : Nat → NodeId → Term
  | 0, _ => default
  | limit + 1, id => .mk ((t.node id).map (t.termWithin limit))

/-- The closed term a handle stands for. -/
def term (t : Tree) (id : NodeId) : Term := t.termWithin t.size id

/-- Whether the trees below two handles are equal up to raw spellings. -/
def agrees (t : Tree) (a b : NodeId) : Bool := (t.term a).agrees (t.term b)

/-- The path from the root above `id` down to `id`. -/
def path (t : Tree) (id : NodeId) : List NodeId := (t.ancestors id).reverse ++ [id]

/-- Compares the places of two paths below their last common node `fork`. -/
def forksBefore (t : Tree) (fork : NodeId) : List NodeId → List NodeId → Bool
  | a :: as, b :: bs =>
    if a = b then t.forksBefore a as bs
    else
      match (t.node fork).children.idxOf? a, (t.node fork).children.idxOf? b with
      | some i, some j => i < j
      | _, _ => false
  | _, _ => false

/-- Whether `a` comes strictly before `b` in source order and neither contains the other. -/
def precedes (t : Tree) (a b : NodeId) : Bool :=
  !t.isWithin b a && !t.isWithin a b &&
    match t.path a, t.path b with
    | r :: as, s :: bs => r = s && t.forksBefore r as bs
    | _, _ => false

def identifiersNamed (t : Tree) (root : NodeId) (name : String) : List NodeId :=
  (t.descendants root).filter fun id => (t.node id).isIdentifierNamed name

/-- Puts `new` into the place of `old`, which becomes detached. Nothing happens when no node
holds `old`. -/
def replace (t : Tree) (old new : NodeId) : Tree :=
  match t.parent? old with
  | none => t
  | some parent =>
    match (t.node parent).replaceChild? old new with
    | none => t
    | some node => ((t.setNode parent node).setParent new (some parent)).setParent old none

/-- Takes a node out of the list or optional field that holds it; `none` if no such field
does. -/
def detach? (t : Tree) (id : NodeId) : Option Tree := do
  let parent ← t.parent? id
  let node ← (t.node parent).detachChild? id
  return (t.setNode parent node).setParent id none

@[simp] theorem size_replace (t : Tree) (old new : NodeId) :
    (t.replace old new).size = t.size := by
  unfold replace
  split
  · rfl
  · split <;> simp

theorem size_of_detach? {t u : Tree} {id : NodeId} (h : t.detach? id = some u) :
    u.size = t.size := by
  simp only [detach?, bind, Option.bind_eq_some_iff] at h
  obtain ⟨parent, -, node, -, rest⟩ := h
  cases rest
  simp

/-- Which copy stands for which node. -/
abbrev Copies := Std.HashMap NodeId NodeId

def copyNode (copies : Copies) (id : NodeId) : StateM Tree Copies := do
  let copy ← alloc (((← get).node id).map fun child => copies.getD child child)
  return copies.insert id copy

/-- Copies everything below `root` into fresh detached nodes, children before parents and the
last ones first, and says which copy stands for which node. -/
def copyMapped (root : NodeId) : StateM Tree (NodeId × Copies) := do
  let copies ← ((← get).descendants root).reverse.foldlM copyNode ∅
  return (copies.getD root root, copies)

/-- Copies everything below `root` into fresh detached nodes. -/
def copy (root : NodeId) : StateM Tree NodeId :=
  Prod.fst <$> copyMapped root

end Tree

end Unravel
