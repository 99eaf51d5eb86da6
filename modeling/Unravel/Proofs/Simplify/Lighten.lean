import Unravel.Proofs.Simplify.Rules
import Unravel.Proofs.Simplify.Surely
import Mathlib.Algebra.Order.Ring.Nat

/-!
Rules that reduce a program: a run of one does not fail, makes the program no heavier, and lighter
if it reports a change. Each rule has its own way to weigh a program.
-/

namespace Unravel

open SimplifyM

variable {p : Program}

theorem Tree.Linked.weight_of_node {M : Type} [AddCommMonoid M] [LinearOrder M] {t : Tree}
    (linked : t.Linked) (W : Weighing M) {id : NodeId} {node : Node NodeId} (there : node ≠ .empty)
    (shape : t.node id = node) :
    t.weight W id = W.weigh node.tag (t.weights W node.children) := by
  subst shape
  exact linked.weight_eq W (Tree.allocated_of_node_ne there)

theorem Tree.Linked.weight_of_isLiteralValue {t : Tree} {id : NodeId} {cost : Node Unit → ℕ}
    (linked : t.Linked) (literals : ∀ value, cost (.literal value) = 0)
    (signs : ∀ operator, cost (.unary operator ()) = 0) (isLiteral : t.isLiteralValue id = true) :
    t.Allocated id ∧ t.weight (.sum cost) id = 0 := by
  have weighs {id : NodeId} {value : Literal} (shape : t.node id = .literal value) :
      t.weight (.sum cost) id = 0 := by
    rw [linked.weight_of_node _ (by simp) shape]
    exact literals value
  unfold Tree.isLiteralValue at isLiteral
  split at isLiteral
  · rename_i shape
    exact ⟨Tree.allocated_of_node_ne (by rw [shape]; simp), weighs shape⟩
  · rename_i argument shape
    split at isLiteral
    · rename_i literal
      refine ⟨Tree.allocated_of_node_ne (by rw [shape]; simp), ?_⟩
      rw [linked.weight_of_node _ (by simp) shape]
      change cost (.unary .minus ()) + (t.weight (.sum cost) argument + 0) = 0
      rw [signs, weighs literal]
    · cases isLiteral
  · cases isLiteral

theorem SimplifyM.Surely.recorded {kind : EventKind} {label : String} {target replacement : NodeId}
    (steady : p.Steady) (free : p.Free target) (allocated : p.tree.Allocated replacement)
    (possible : p.Replaceable target replacement) :
    Surely p (do SimplifyM.replaceAndRecord kind label target replacement; return true)
      fun _ q => p.Replaced target replacement q ∧ True :=
  .bind (replaceAndRecord steady free allocated possible)
    fun _ _ steady _ replaced => .pure steady ⟨replaced, trivial⟩

/-! ### Dotted calls -/

namespace DottedCall

def computedMembers : Weighing ℕ := .sum fun
  | .member _ _ true => 1
  | _ => 0

theorem lightens (steady : p.Steady) :
    Surely p run fun changed q => True ∧ p.Lightens computedMembers changed q := by
  refine .visit (fun _ => True) steady trivial fun call q steady _ _ _ attached => .program ?_
  split
  · exact .pure steady ⟨trivial, .refl q⟩
  · rename_i callee base name planned
    obtain ⟨key, arguments, callShape, shape, -⟩ := of_plan? planned
    have linked := steady.linked
    have held : q.tree.parent? callee = some call := by
      rw [← linked.mem_children, show q.tree.node call = .call callee arguments from callShape]
      exact List.mem_cons_self ..
    have baseHeld : q.tree.parent? base = some callee := by
      rw [← linked.mem_children, show q.tree.node callee = .member base key true from shape]
      exact List.mem_cons_self ..
    have weighs : q.tree.weight computedMembers callee = 1 + (q.tree.weight computedMembers base +
        (q.tree.weight computedMembers key + 0)) :=
        linked.weight_of_node computedMembers (by simp) shape
    have adds : q.tree.Adds computedMembers [] Tree.piece
        (do Tree.dotMember (← Tree.copy base) name) (0 + 0 + q.tree.weight computedMembers base) :=
      .bind (Tree.adds_copy linked base (Tree.allocated_of_parent? baseHeld)) fun copy =>
        Tree.adds_labelled (Tree.adds_leaf rfl (by simp [Node.part]) fun sum => le_of_eq rfl)
          (fun label => .swap label copy []) (by simp [Node.part]) fun _ sum => le_of_eq rfl
    refine .mono (Surely.exchange steady adds (.of_isPlain steady (by rw [shape]; rfl))
      (linked.isWithin_trans (linked.isWithin_of_parent held) attached)
      (steady.ne_root fun body same => by rw [shape] at same; cases same)
      fun _ _ steady free allocated possible => Surely.recorded steady free allocated possible) ?_
    refine fun changed r exchanged => ⟨trivial, exchanged.1.lightens steady ?_⟩
    rw [weighs]
    omega

end DottedCall

/-! ### Branches -/

/-- Every node costs the same. -/
def allNodes : Weighing ℕ := .sum fun _ => 1

theorem Tree.Linked.weight_lt_of_parent? {t : Tree} {child parent : NodeId} (linked : t.Linked)
    (held : t.parent? child = some parent) :
    t.weight allNodes child < t.weight allNodes parent := by
  have weighs : t.weight allNodes parent = 1 + t.weightBelow allNodes parent :=
    linked.weight_eq allNodes (linked.allocated_parent held)
  have le :=
    le_sum_of_mem (List.mem_map_of_mem (f := t.weight allNodes) (linked.mem_children.mpr held))
  rw [weighs, Tree.weightBelow]
  omega

theorem Tree.Linked.weight_pos {t : Tree} {id : NodeId} (linked : t.Linked)
    (allocated : t.Allocated id) :
    0 < t.weight allNodes id := by
  rw [linked.weight_eq allNodes allocated]
  exact Nat.add_pos_left Nat.one_pos _

namespace Branch

theorem parts_of_plan? {id : NodeId} {plan : Plan} (planned : plan? p id = some plan) :
    (p.node id).isPlain = true ∧ (∀ body, p.node id ≠ .program body) ∧
      plan.test ∈ (p.node id).children ∧
        (∀ branch, plan.taken = some branch → branch ∈ (p.node id).children) ∧
        (plan.taken = none → (p.node id).isStatement = true) := by
  have isChild (branch : NodeId) (taken : plan.taken = some branch) :=
    (choice_of_plan? planned taken).1
  obtain ⟨value, -, ⟨_, _, shape, -⟩ | ⟨_, _, shape, isTaken⟩ | ⟨_, shape, -⟩⟩ := of_plan? planned
  · exact ⟨by rw [shape]; rfl, by simp [shape], by simp [shape, Node.children], isChild,
      fun _ => by rw [shape]; rfl⟩
  · exact ⟨by rw [shape]; rfl, by simp [shape], by simp [shape, Node.children], isChild,
      by simp [isTaken]⟩
  · exact ⟨by rw [shape]; rfl, by simp [shape], by simp [shape, Node.children], isChild,
      fun _ => by rw [shape]; rfl⟩

theorem lightens (steady : p.Steady) :
    Surely p run fun changed q => True ∧ p.Lightens allNodes changed q := by
  refine .visit (fun _ => True) steady trivial fun id q steady _ _ _ attached => .program ?_
  split
  · exact .pure steady ⟨trivial, .refl q⟩
  · rename_i plan planned
    obtain ⟨isPlain, notProgram, tested, takes, drops⟩ := parts_of_plan? planned
    have linked := steady.linked
    refine .snippet fun test => ?_
    have recorded {r : Program} (steady : r.Steady) (message : String)
      (lightens : r.weight allNodes < q.weight allNodes) :
        Surely r (do record .branchPruned id message; return true)
          fun changed r => True ∧ q.Lightens allNodes changed r :=
      .bind (.record _ _ _ steady)
        fun _ _ steady _ same => .pure steady ⟨trivial, .of_lt (same ▸ lightens)⟩
    split
    · rename_i branch taken
      have held := linked.mem_children.mp (takes branch taken)
      have adds := Tree.adds_copy (W := allNodes) linked branch (Tree.allocated_of_parent? held)
      refine .mono (Surely.exchange (J := fun _ _ => True) steady adds
        (.of_isPlain steady isPlain) attached (steady.ne_root notProgram)
          fun piece r steady free allocated possible => ?_) ?_
      · refine .bind (Surely.discardReplace steady free allocated possible)
          fun _ _ steady _ replaced => ?_
        exact .bind (.record _ _ _ steady)
          fun _ _ steady _ same => .pure steady ⟨same ▸ replaced, trivial⟩
      · exact fun _ _ exchanged =>
          ⟨trivial, exchanged.1.lightens steady (linked.weight_lt_of_parent? held)⟩
    · rename_i taken
      obtain ⟨removable, leaves⟩ := steady.removable_statement attached (drops taken)
      have isTest := linked.mem_children.mp tested
      have lighter := linked.weight_lt_of_parent? isTest
      have positive := linked.weight_pos (Tree.allocated_of_parent? isTest)
      refine .bind (Surely.remove steady removable) fun _ r steady _ result => recorded steady _ ?_
      refine result.1.weight_carried allNodes.carries_lt ?_ ?_
      · rw [leaves]
        omega
      · rw [leaves]
        change 1 + 0 < _
        omega

end Branch

/-! ### Reads of arrays -/

namespace ArrayRead

/-- Every member expression costs something. -/
def members : Weighing ℕ := .sum fun
  | .member .. => 1
  | _ => 0

theorem lightens_replaceRead {member element : NodeId} {computed : Bool} (steady : p.Steady)
    (free : p.Free member) (shape : (p.tree.node member).tag = .member () () computed)
    (attached : p.tree.isWithin member p.root = true) (allocated : p.tree.Allocated element)
    (noMembers : p.tree.weight members element = 0) :
    Surely p (replaceRead member element) fun changed q =>
      p.Exchanged members 0 member q ∧ p.Lightens members changed q := by
  have adds := Tree.adds_copy (W := members) steady.linked element allocated
  rw [noMembers] at adds
  refine .mono (Surely.exchange steady adds free attached (steady.ne_root fun body same => ?_)
    fun _ _ steady free allocated possible => Surely.recorded steady free allocated possible) ?_
  · rw [show p.tree.node member = .program body from same] at shape
    cases shape
  · refine fun changed q exchanged => ⟨exchanged.1, exchanged.1.lightens steady ?_⟩
    rw [steady.linked.weight_eq members free.allocated, shape]
    exact Nat.add_pos_left Nat.one_pos _

theorem lightens (steady : p.Steady) :
    Surely p run fun changed q => True ∧ p.Lightens members changed q := by
  refine .visit (fun _ => True) steady trivial fun declarator q steady _ _ _ _ => .program ?_
  split
  · split
    · exact .pure steady ⟨trivial, .refl q⟩
    · rename_i binding belongs
      -- The elements that are read contain no members, whatever has been replaced.
      refine .context fun c => .mono (Surely.anyChange (fun _ r => ∀ pair ∈ plan q c binding,
        r.tree.Allocated pair.2 ∧ r.tree.weight members pair.2 = 0) steady ?_
        fun pair rest r planned steadyAfter leads noMembers => ?_)
        fun _ _ result => ⟨trivial, result.2⟩
      · intro pair planned
        obtain ⟨_, _, _, _, _, _, -, -, -, isLiteral, -⟩ := of_mem_plan planned
        exact steady.linked.weight_of_isLiteralValue (fun _ => rfl) (fun _ => rfl) isLiteral
      · obtain ⟨_, _, _, base, key, computed, -, -, -, -, shape⟩ := of_mem_plan planned
        have free := free_of_mem_plan steady planned
        have tag := leads.tag free.allocated
        rw [show q.tree.node pair.1 = .member base key computed from shape] at tag
        refine Surely.ifAttached steadyAfter noMembers fun attached => ?_
        obtain ⟨allocated, none⟩ := noMembers pair planned
        refine .monoAfter (lightens_replaceRead steadyAfter (free.leads leads) tag attached
          allocated none) ?_
        refine fun changed s _ leads result => ⟨fun other isOther => ?_, result.2⟩
        obtain ⟨isAllocated, noMembers⟩ := noMembers other isOther
        have lighter := result.1.weight_le steadyAfter (Nat.zero_le _) isAllocated
        exact ⟨leads.allocated isAllocated, Nat.le_zero.mp (noMembers ▸ lighter)⟩
  · exact .pure steady ⟨trivial, .refl q⟩

end ArrayRead

end Unravel
