import Unravel.Proofs.Program.Change
import Unravel.Proofs.Program.Reissued
import Unravel.Proofs.Tree.Term

/-!
Programs whose nodes stand where they stood, although some have been made anew
(`Program.Relocated`). Putting a new literal into the place of a literal relocates a program and
leaves its table alone (`Program.Rooted.exists_relocated`).
-/

namespace Unravel

namespace Program

variable {p q r after : Program} {id site placed : NodeId} {contents later : NodeId → Node NodeId}
  {now next : NodeId → NodeId}

theorem Rooted.mem_nodes (rooted : p.Rooted) : id ∈ p.nodes ↔ p.tree.isWithin id p.root = true :=
  rooted.linked.mem_descendants_iff rooted.isTop.allocated

/-! ### Nodes that stand where they stood -/

structure Relocated (p q : Program) (contents : NodeId → Node NodeId)
    (now : NodeId → NodeId) : Prop where
  root : q.root = p.root
  nodes : q.nodes = p.nodes.map now
  node : ∀ {id}, id ∈ p.nodes → q.node (now id) = (contents id).map now

namespace Relocated

theorem refl (p : Program) : p.Relocated p p.node fun id => id where
  root := rfl
  nodes := (List.map_id' _).symm
  node _ := (Node.map_self _).symm

variable (relocated : p.Relocated q contents now)

include relocated

theorem mem_nodes (member : id ∈ p.nodes) : now id ∈ q.nodes := by
  rw [relocated.nodes]
  exact List.mem_map_of_mem member

/-- Different nodes have different nodes in their places. -/
theorem injective (rooted : q.Rooted) {a b : NodeId} (first : a ∈ p.nodes) (second : b ∈ p.nodes)
    (same : now a = now b) : a = b := by
  have distinct : q.nodes.Nodup := rooted.linked.nodup_descendants rooted.isTop.allocated
  rw [relocated.nodes] at distinct
  exact List.inj_on_of_nodup_map distinct first second same

theorem trans (further : q.Relocated r later next) {whole : NodeId → Node NodeId}
    (agrees :
      ∀ {id}, id ∈ p.nodes → (later (now id)).map next = (whole id).map fun id => next (now id)) :
    p.Relocated r whole fun id => next (now id) where
  root := further.root.trans relocated.root
  nodes := by rw [further.nodes, relocated.nodes, List.map_map]; rfl
  node member := by rw [further.node (relocated.mem_nodes member), agrees member]

theorem congr (same : ∀ {id}, id ∈ p.nodes → contents id = later id) : p.Relocated q later now where
  root := relocated.root
  nodes := relocated.nodes
  node member := by rw [relocated.node member, same member]

end Relocated

theorem Rooted.relocated (rooted : p.Rooted) (afterRooted : q.Rooted) (root : q.root = p.root)
    (stays : now p.root = p.root) (present : ∀ {id}, id ∈ p.nodes → q.tree.Allocated (now id))
    (node : ∀ {id}, id ∈ p.nodes → q.node (now id) = (contents id).map now)
    (children : ∀ {id}, id ∈ p.nodes → (contents id).children = (p.node id).children) :
    p.Relocated q contents now := by
  refine ⟨root, ?_, node⟩
  rw [nodes, root, ← stays]
  refine rooted.linked.descendants_relocated afterRooted.linked rooted.isTop.allocated
    (fun inside => present (rooted.mem_nodes.mpr inside)) fun {id} inside => ?_
  have member := rooted.mem_nodes.mpr inside
  have same := congrArg Node.children (node member)
  rwa [Node.children_map, children member] at same

/-! ### A literal in the place of a literal -/

variable {old new : Literal}

theorem removeReferences_of_literal (linked : p.tree.Linked) (allocated : p.tree.Allocated site)
    (isLiteral : p.node site = .literal old) : p.removeReferences site = p := by
  have closed : (p.tree.scopeKind? site).isSome = false := by
    rw [Tree.scopeKind?, show p.tree.node site = .literal old from isLiteral]
    rfl
  have forgotten : p.forgetNode site = (p, none) := by
    rw [forgetNode]
    simp only [closed, Bool.false_eq_true, if_false]
    rw [isLiteral]
    rfl
  rw [removeReferences, linked.descendants_eq allocated,
    show p.tree.node site = .literal old from isLiteral]
  simp [Node.children, forgotten]

theorem fixReferences_of_literal (linked : p.tree.Linked) (allocated : p.tree.Allocated site)
    (isLiteral : p.node site = .literal old) (fresh : p.stale = false)
    (attaches : p.fixReferences site = .ok after) :
    after = p := by
  have closed : p.introducesNames site = false := by
    rw [introducesNames, isLiteral]
    dsimp only
    rw [Tree.scopeKind?, show p.tree.node site = .literal old from isLiteral]
    rfl
  have below : p.tree.descendants site = [site] := by
    rw [linked.descendants_eq allocated, show p.tree.node site = .literal old from isLiteral]
    rfl
  have unused (s : Scopes) : s.attachUse p.tree site = s := by
    rw [Scopes.attachUse, show p.tree.node site = .literal old from isLiteral]
    rfl
  rw [fixReferences, isAttached_of_fixReferences attaches] at attaches
  simp only [Bool.not_true, Bool.false_eq_true, if_false, fresh, below, List.any_cons,
    closed, List.any_nil, Bool.or_self, List.foldl_cons, List.foldl_nil, Except.ok.injEq, unused,
    ite_self] at attaches
  rw [← attaches, ← fresh]

theorem staged_of_literal (linked : p.tree.Linked) (allocated : p.tree.Allocated site)
    (isLiteral : p.node site = .literal old) (placed : NodeId) :
    p.unwrap site placed = (placed, p) ∧
    p.staged site placed = { p with tree := p.tree.replace site placed } := by
  have notStatement : (p.node site).isStatement = false := by
    rw [isLiteral]
    rfl
  have unwrapped := unwrap_of_not_statement notStatement placed
  refine ⟨unwrapped, ?_⟩
  rw [staged, unwrapped]
  dsimp only
  rw [exchanged, removeReferences_of_literal linked allocated isLiteral]

theorem Rooted.replace_literal (rooted : p.Rooted) (allocated : p.tree.Allocated placed)
    (replaceable : p.Replaceable site placed) (isLiteral : p.node site = .literal old)
    (isNew : p.node placed = .literal new) :
    ∃ after, p.replace site placed = .ok (placed, after) ∧ after.Rooted ∧
      after.root = p.root ∧ (∀ id, after.tree.Allocated id ↔ p.tree.Allocated id) ∧
      (∀ id, after.node id = (p.node id).map (Node.exchange site placed)) ∧
      (p.stale = false → after.scopes = p.scopes ∧ after.stale = false) := by
  have attached := replaceable.attached
  rw [isAttached_eq rooted.linked rooted.isTop.top] at attached
  obtain ⟨unwrapped, isStaged⟩ := staged_of_literal rooted.linked
    (rooted.linked.allocated_of_isWithin attached rooted.isTop.allocated) isLiteral placed
  obtain ⟨parent, held, -⟩ := rooted.linked.exists_parent_of_isWithin attached replaceable.notRoot
  obtain ⟨after, done⟩ := rooted.exists_replace allocated replaceable
  obtain ⟨-, -, attaches⟩ := replace_eq_ok_iff.mp done
  have staging := rooted.staging allocated replaceable
  have stagedRooted := staging.rooted
  have edited := staging.edited
  rw [unwrapped] at done attaches edited
  rw [isStaged] at attaches stagedRooted edited
  obtain ⟨tree, root⟩ := eq_of_fixReferences attaches
  have node (id : NodeId) : after.node id = (p.node id).map (Node.exchange site placed) := by
    rw [Program.node, tree]
    exact Tree.node_replace rooted.linked held
  refine ⟨after, done, (stagedRooted.congr tree root).1, root, fun id => ?_, node, fun fresh => ?_⟩
  · rw [tree]
    exact edited.allocated
  · have isPlaced : Program.node { p with tree := p.tree.replace site placed } placed =
        .literal new := by
      have here := node placed
      rw [isNew, Program.node, tree] at here
      exact here
    rw [fixReferences_of_literal stagedRooted.linked (edited.allocated.mpr allocated) isPlaced
      fresh attaches]
    exact ⟨rfl, fresh⟩

theorem Rooted.exists_relocated (rooted : p.Rooted) (member : site ∈ p.nodes)
    (isLiteral : p.node site = .literal old) (new : Literal) :
    ∃ after placed grown, Tree.alloc (.literal new) p.tree = (placed, grown) ∧
      Program.replace { p with tree := grown } site placed = .ok (placed, after) ∧ after.Rooted ∧
        p.Relocated after (fun id => if id = site then .literal new else p.node id)
          (Node.exchange site placed) ∧
        (p.stale = false → after.scopes = p.scopes ∧ after.stale = false) := by
  have linked := rooted.linked
  have isTop := rooted.isTop
  have grows := (Tree.Grows.refl linked).alloc (.literal new) nofun List.nodup_nil
  have loose := (Tree.Grows.refl linked).loose_alloc (.literal new) nofun
  have isNew : (Tree.alloc (.literal new) p.tree).2.node (Tree.alloc (.literal new) p.tree).1 =
      .literal new := by
    rw [Tree.node_alloc]
    exact if_pos rfl
  generalize isMade : Tree.alloc (.literal new) p.tree = made at grows loose isNew ⊢
  obtain ⟨placed, grown⟩ := made
  dsimp only at grows loose isNew
  have attached := rooted.mem_nodes.mp member
  have allocated {id : NodeId} (member : id ∈ p.nodes) : p.tree.Allocated id :=
    linked.allocated_of_isWithin (rooted.mem_nodes.mp member) isTop.allocated
  have notRoot : site ≠ p.root := by
    rintro rfl
    obtain ⟨body, isProgram⟩ := rooted.isProgram
    rw [isLiteral] at isProgram
    cases isProgram
  have replaceable : Program.Replaceable { p with tree := grown } site placed := by
    refine ⟨?_, notRoot, loose.detached, fun same => loose.new (same ▸ isTop.allocated)⟩
    rw [isAttached_eq grows.linked (grows.isTop isTop.allocated isTop.top).2]
    exact (grows.isWithin linked isTop.allocated).trans attached
  obtain ⟨after, done, afterRooted, root, sameAllocated, node, table⟩ :=
    (rooted.grow grows).replace_literal loose.allocated replaceable
      ((grows.node (allocated member)).trans isLiteral) isNew
  have isPlaced : Node.exchange site placed site = placed := if_pos rfl
  refine ⟨after, placed, grown, rfl, done, afterRooted, rooted.relocated afterRooted root
    (Node.exchange_of_ne notRoot.symm) (fun {id} member => ?_) (fun {id} member => ?_)
      (fun {id} member => ?_), table⟩
  · refine (sameAllocated _).mpr ?_
    by_cases isSite : id = site
    · rw [isSite, isPlaced]
      exact loose.allocated
    · rw [Node.exchange_of_ne isSite]
      exact grows.allocated (allocated member)
  · split
    · rename_i isSite
      rw [isSite, isPlaced, node, show Program.node { p with tree := grown } placed = _ from isNew]
    · rename_i other
      rw [Node.exchange_of_ne other, node]
      exact congrArg (Node.map _) (grows.node (allocated member))
  · split
    · rename_i isSite
      rw [isSite, isLiteral]
      rfl
    · rfl

end Program

end Unravel
