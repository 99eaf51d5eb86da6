import Unravel.Proofs.Program.Orderly
import Unravel.Proofs.Simplify.Along

/-!
Building operands and putting them into the places of others, as orderly changes (`Program.Parts`,
`SimplifyM.Along.place`).
-/

namespace Unravel

namespace Node

variable {α : Type} {n : Node α}

theorem isOperand_of_isSimple (simple : n.isSimple = true) : n.isOperand = true := by
  cases n <;> simp_all [isSimple, isOperand, isStatement, isCase, isDeclarator, isProgram]

theorem isOperand_of_isIdentifier (isIdentifier : n.isIdentifier = true) : n.isOperand = true := by
  cases n <;> first | rfl | simp_all [Node.isIdentifier, identifier?]

theorem not_isBoundary_of_isSimple (simple : n.isSimple = true) : n.isBoundary = false := by
  cases n <;> simp_all [isSimple, isBoundary, isFunction, function?, isProgram]

end Node

namespace Program

variable {o p q : Program} {aim : Aim} {good : Tree → NodeId → Prop} {t mid after grown : Tree}
  {held held' : List NodeId} {id root target piece replacement : NodeId} {node : Node NodeId}

/-- A store has grown as it is asked, and some pieces of a kind are at hand. -/
structure Parts (o : Program) (aim : Aim) (good : Tree → NodeId → Prop) (t : Tree)
    (held : List NodeId) (mid : Tree) : Prop where
  assembly : t.Assembly held mid
  grown : o.Grown aim t mid
  known : aim ≠ .links → o.tree.size ≤ t.size
  good : aim ≠ .links → ∀ id ∈ held, good mid id

/-- What is said of a piece stays so when the store grows, and holds of its copies. -/
structure Lasting (good : Tree → NodeId → Prop) : Prop where
  grow : ∀ {t after id}, t.Linked → (∀ {id}, t.Allocated id → after.node id = t.node id) →
    t.Allocated id →
    good t id → good after id
  copy : ∀ {t after root copyOf}, t.Linked → t.Copied root copyOf after → good t root →
    good after (copyOf root)

/-- A piece is an operand. -/
def IsOperand (t : Tree) (id : NodeId) : Prop := (t.node id).isOperand = true

theorem lasting_isOperand : Lasting IsOperand where
  grow _ same isAllocated isOperand := by
    rw [IsOperand, same isAllocated]
    exact isOperand
  copy _ copied isOperand := by
    rw [IsOperand, Node.isOperand_congr (copied.tag_copy Tree.isWithin_self)]
    exact isOperand

namespace Parts

theorem perm (parts : o.Parts aim good t held mid) (same : held.Perm held') :
    o.Parts aim good t held' mid :=
  ⟨parts.assembly.perm same, parts.grown, parts.known,
    fun isOther id member => parts.good isOther id (same.mem_iff.mpr member)⟩

theorem isNew (parts : o.Parts aim good t held mid) (isOther : aim ≠ .links) (member : id ∈ held) :
    ¬o.tree.Allocated id :=
  fun isAllocated => (parts.assembly.loose id member).new (Nat.lt_of_lt_of_le isAllocated
    (parts.known isOther))

theorem mono (parts : o.Parts aim good t held mid) (fewer : held'.Sublist held) :
    o.Parts aim good t held' mid :=
  ⟨parts.assembly.mono fewer, parts.grown, parts.known,
    fun isOther id member => parts.good isOther id (fewer.subset member)⟩

theorem trans (lasting : Lasting good) (first : o.Parts aim good t held mid)
    (second : o.Parts aim good mid held' after) :
    o.Parts aim good t (held' ++ held) after where
  assembly := first.assembly.trans second.assembly
  grown := ⟨first.grown.grows.trans second.grown.grows, second.grown.sorted, second.grown.calm,
    second.grown.wellBound⟩
  known := first.known
  good isOther id member := by
    rcases List.mem_append.mp member with member | member
    · exact second.good isOther id member
    · exact lasting.grow first.grown.grows.linked second.grown.grows.node
        (first.assembly.loose id member).allocated (first.good isOther id member)

theorem adopt (node : Node NodeId) (parts : o.Parts aim good t (node.children ++ held) mid)
    (fits : aim ≠ .links → ∀ child ∈ node.children, node.admits (mid.node child) = true)
    (stay : aim = .jumps → node.isBoundary = true →
      ∀ child ∈ node.children, ∀ j, ¬mid.JumpsOut j child)
    (wellBound : aim = .names → (Tree.alloc node mid).2.WellBound) :
    t.Assembly ((Tree.alloc node mid).1 :: held) (Tree.alloc node mid).2 ∧
      o.Grown aim t (Tree.alloc node mid).2 := by
  have assembly := parts.assembly.alloc node
  have linked := parts.assembly.grows.linked
  have isHeld {child : NodeId} (member : child ∈ node.children) := List.mem_append_left held member
  have allocated : ∀ child ∈ node.children, mid.Allocated child :=
    fun child member => (parts.assembly.loose child (isHeld member)).allocated
  refine ⟨assembly, assembly.grows, fun isOther => ?_, fun isJumps => ?_, wellBound⟩
  · exact (parts.grown.sorted isOther).alloc linked allocated fun child member =>
      ⟨.inr (parts.isNew isOther (isHeld member)), fits isOther child member⟩
  · exact (parts.grown.calm isJumps).alloc linked allocated (stay isJumps)

theorem around (lasting : Lasting good) (node : Node NodeId)
    (parts : o.Parts aim good t (node.children ++ held) mid)
    (adopted : t.Assembly ((Tree.alloc node mid).1 :: held) (Tree.alloc node mid).2 ∧
      o.Grown aim t (Tree.alloc node mid).2)
    (isGood : aim ≠ .links → good (Tree.alloc node mid).2 (Tree.alloc node mid).1) :
    o.Parts aim good t ((Tree.alloc node mid).1 :: held) (Tree.alloc node mid).2 := by
  refine ⟨adopted.1, adopted.2, parts.known, fun isOther => List.forall_mem_cons.mpr
    ⟨isGood isOther, fun id member => ?_⟩⟩
  have before := List.mem_append_right node.children member
  exact lasting.grow parts.assembly.grows.linked Tree.node_alloc_of_allocated
    (parts.assembly.loose id before).allocated (parts.good isOther id before)

theorem alloc (node : Node NodeId) (simple : node.isSimple = true)
    (parts : o.Parts aim IsOperand t (node.children ++ held) mid) :
    o.Parts aim IsOperand t ((Tree.alloc node mid).1 :: held) (Tree.alloc node mid).2 := by
  refine parts.around lasting_isOperand node (parts.adopt node (fun isOther child member => ?_)
    (fun _ isBoundary => ?_) fun isNames => ?_) fun _ => ?_
  · exact Node.admits_of_isOperand node
      (parts.good isOther child (List.mem_append_left held member))
  · rw [Node.not_isBoundary_of_isSimple simple] at isBoundary
    cases isBoundary
  · have building := Tree.makes_alloc node (Node.part_of_isSimple simple) t held mid
      (.of_assembly parts.assembly (parts.grown.wellBound isNames))
    exact building.wellBound
  · rw [IsOperand, show (Tree.alloc node mid).1 = ⟨mid.size⟩ from rfl, Tree.node_alloc, if_pos rfl]
    exact Node.isOperand_of_isSimple simple

end Parts

theorem workshop_parts (o : Program) (aim : Aim) (t : Tree) :
    Tree.Workshop (o.Parts aim IsOperand t) where
  perm _ _ _ parts same := parts.perm same
  alloc node simple _ _ parts := parts.alloc node simple

/-- A node of the program or a new one. -/
structure Held (o : Program) (aim : Aim) (t : Tree) (id : NodeId) : Prop where
  owned : aim ≠ .links → o.Owns id
  allocated : t.Allocated id

/-- What is copied: a node of the program or a new one, of a kind. -/
structure Source (o : Program) (aim : Aim) (good : Tree → NodeId → Prop) (t : Tree)
    (root : NodeId) : Prop extends o.Held aim t root where
  good : aim ≠ .links → good t root

theorem Held.follows (held : o.Held aim p.tree id) (leads : p.Follows q) :
    o.Held aim q.tree id where
  owned := held.owned
  allocated := leads.allocated held.allocated

theorem Source.follows (source : o.Source aim IsOperand p.tree id) (leads : p.Follows q) :
    o.Source aim IsOperand q.tree id where
  toHeld := source.toHeld.follows leads
  good isOther := by
    rw [IsOperand, Node.isOperand_congr (leads.tag source.allocated)]
    exact source.good isOther

namespace Orderly

variable (here : o.Orderly aim p p)

include here

theorem held_of_isAttached (attached : p.isAttached id = true) : o.Held aim p.tree id where
  owned isOther := (here.neat isOther).owns_of_isAttached attached
  allocated := here.rooted.allocated_of_isAttached attached

theorem held_child {c : NodeId} (held : o.Held aim p.tree id) (member : c ∈ (p.node id).children) :
    o.Held aim p.tree c where
  owned isOther := ((here.neat isOther).tidy.sorted.child (held.owned isOther) member).1
  allocated := Tree.allocated_of_parent? (here.rooted.linked.mem_children.mp member)

/-- The children of an expression are operands. -/
theorem operand {c : NodeId} (held : o.Held aim p.tree id) (member : c ∈ (p.node id).children)
    (holds : (p.node id).holdsOperands = true) : o.Source aim IsOperand p.tree c where
  toHeld := here.held_child held member
  good isOther := (here.neat isOther).tidy.sorted.isOperand_child (held.owned isOther) member holds

end Orderly

theorem yields_copy (linked : t.Linked) (lasting : Lasting good)
    (source : o.Source aim good t root) :
    Tree.Yields (o.Parts aim good t) [] Tree.piece (Tree.copy root) := by
  intro held mid parts
  have midLinked := parts.assembly.grows.linked
  obtain ⟨copied, isCopy⟩ := midLinked.copied parts.assembly.nonempty root
  have assembly := parts.assembly.copy root
  change o.Parts aim good t ((Tree.copyMapped root mid).1.1 :: held) (Tree.copyMapped root mid).2
  refine ⟨assembly, ⟨assembly.grows, fun isOther => ?_, fun isJumps => ?_, fun isNames => ?_⟩,
    parts.known, fun isOther => List.forall_mem_cons.mpr ⟨?_, fun id member => ?_⟩⟩
  · refine (parts.grown.sorted isOther).copied midLinked copied (source.owned isOther)
      fun id isNew => .inr ?_
    exact fun isAllocated => isNew (parts.assembly.grows.allocated
      (Nat.lt_of_lt_of_le isAllocated (parts.known isOther)))
  · have isOther : aim ≠ .links := by rintro rfl; cases isJumps
    exact (parts.grown.calm isJumps).copied (parts.grown.sorted isOther) midLinked copied
      (source.owned isOther)
  · exact copied.wellBound midLinked (parts.grown.wellBound isNames)
  · rw [isCopy]
    exact lasting.copy midLinked copied
      (lasting.grow linked parts.assembly.grows.node source.allocated (source.good isOther))
  · exact lasting.grow midLinked copied.grows.node (parts.assembly.loose id member).allocated
      (parts.good isOther id member)

/-! ### Places -/

theorem Orderly.parts (here : o.Orderly aim p p) : o.Parts aim good p.tree [] p.tree :=
  ⟨.start here.rooted.linked here.rooted.nonempty, ⟨.refl here.rooted.linked,
    fun isOther => (here.neat isOther).tidy.sorted, here.calm,
    fun isNames => (here.steady isNames).1.wellBound⟩, fun isOther => (here.neat isOther).tidy.size,
    fun _ => by simp⟩

/-- Where names are to keep their meaning, a place for operands that is no place for names. -/
def Spot (aim : Aim) (p : Program) (target : NodeId) : Prop :=
  aim = .names → p.Free target ∧ (p.node target).isOperand = true

theorem Spot.orderly (spot : p.Spot aim target) (orderly : o.Orderly aim p q) :
    q.Spot aim target := by
  intro isNames
  obtain ⟨free, isOperand⟩ := spot isNames
  refine ⟨free.leads (orderly.steady isNames).2, ?_⟩
  rw [Program.node, Node.isOperand_congr (orderly.tag free.allocated)]
  exact isOperand

theorem Orderly.spot (here : o.Orderly aim p p) (isPlain : (p.node target).isPlain = true)
    (isOperand : (p.node target).isOperand = true) : p.Spot aim target :=
  fun isNames => ⟨.of_isPlain (here.steady isNames).1 isPlain, isOperand⟩

theorem Orderly.fits (here : o.Orderly aim p p) (spot : p.Spot aim target)
    (allocated : p.tree.Allocated replacement)
    (isNew : aim ≠ .links → ¬o.tree.Allocated replacement)
    (operand : aim ≠ .links → (p.node replacement).isOperand = true) :
    o.Fits aim p target replacement where
  allocated := allocated
  isNew := isNew
  suits isOther := .inl (operand isOther)
  stay isJumps j jumpsOut := by
    have isOther : aim ≠ .links := by rintro rfl; cases isJumps
    exact absurd jumpsOut
      ((here.neat isOther).tidy.sorted.not_jumpsOut_of_isOperand (.inr (isNew isOther))
        (operand isOther))
  free isNames := (spot isNames).1.notBinding
  operands isNames := ⟨(spot isNames).2, operand (by rintro rfl; cases isNames)⟩

theorem Orderly.adopt (here : o.Orderly aim p p) (simple : node.isSimple = true)
    (free : ∀ child ∈ node.children, p.tree.IsTop child ∧ child ≠ p.root)
    (distinct : node.children.Nodup) (operands : aim ≠ .links → ∀ child ∈ node.children,
      ¬o.tree.Allocated child ∧ (p.node child).isOperand = true) :
    o.Orderly aim p { p with tree := (Tree.alloc node p.tree).2 } := by
  have rooted := here.rooted
  have linked := rooted.linked
  have allocated := fun child member => (free child member).1.allocated
  have afterLinked :=
    linked.alloc allocated (fun child member => (free child member).1.top) distinct
  have unchanged := linked.unchanged_alloc rooted.isTop free
  have size : p.tree.size ≤ (Tree.alloc node p.tree).2.size := by
    rw [Tree.size_alloc]
    exact Nat.le_succ _
  refine ⟨⟨rooted.elsewhere rfl unchanged afterLinked size, rfl, size, fun isAllocated => ?_⟩,
    fun isOther => ?_, fun isJumps => ?_, fun isNames => ?_,
    fun _ => rooted.spares_elsewhere unchanged afterLinked size⟩
  · rw [show _ = _ from Tree.node_alloc_of_allocated isAllocated]
  · have neat := here.neat isOther
    refine ⟨neat.origin,
      neat.keeps.imp fun _ keeps => keeps.elsewhere rfl rfl rfl unchanged afterLinked size,
      neat.root, ⟨Nat.le_trans neat.tidy.size size,
        fun attached held => neat.tidy.hangs attached ?_, ?_⟩⟩
    · rwa [Tree.parent?_alloc allocated, if_neg] at held
      exact fun member =>
        (operands isOther _ member).1 (neat.origin.allocated_of_isAttached attached)
    · exact neat.tidy.sorted.alloc linked allocated fun child member =>
        ⟨.inr (operands isOther child member).1,
          Node.admits_of_isOperand node (operands isOther child member).2⟩
  · refine (here.calm isJumps).alloc linked allocated fun isBoundary => ?_
    rw [Node.not_isBoundary_of_isSimple simple] at isBoundary
    cases isBoundary
  · exact (here.steady isNames).1.adopt free distinct (Node.part_of_isSimple simple)

end Program

open Program

namespace SimplifyM.Along

variable {o p q : Program} {aim : Aim} {good : Tree → NodeId → Prop} {α β : Type}
  {target replacement : NodeId} {kind : EventKind} {label : String}
  {post : α → Program → Prop} {post' : β → Program → Prop}

theorem course (o : Program) (aim : Aim) :
    Course (o.Orderly aim) := ⟨Orderly.stay, Orderly.trans, Orderly.toFollows⟩

theorem buildTo {good' : Tree → NodeId → Prop} {made : α → List NodeId} {action : StateM Tree α}
    (here : o.Orderly aim p p)
    (turns : Tree.Turns (o.Parts aim good p.tree) (o.Parts aim good' p.tree) [] made action) :
    Along (o.Orderly aim) p (SimplifyM.build action) fun a q =>
      ∃ grown, q = { p with tree := grown } ∧ o.Parts aim good' p.tree (made a) grown := by
  refine edit (course o aim) here fun a q done => ?_
  cases done
  have parts := turns p.tree here.parts
  exact ⟨here.grow parts.grown, _, rfl, parts⟩

theorem build {made : α → List NodeId} {action : StateM Tree α} (here : o.Orderly aim p p)
    (yields : Tree.Yields (o.Parts aim good p.tree) [] made action) :
    Along (o.Orderly aim) p (SimplifyM.build action) fun a q =>
      ∃ grown, q = { p with tree := grown } ∧ o.Parts aim good p.tree (made a) grown :=
  buildTo here yields.turns

theorem replace (here : o.Orderly aim p p) (fits : o.Fits aim p target replacement) :
    Along (o.Orderly aim) p (SimplifyM.replace target replacement) fun _ q =>
      q.tree.IsTop target ∧ ∀ id, p.tree.IsTop id → id ≠ replacement → q.tree.IsTop id :=
  edit (course o aim) here
    fun _ _ done => ⟨here.replace fits done, (here.rooted.of_replace fits.allocated done).2⟩

theorem discardReplace (here : o.Orderly aim p p) (fits : o.Fits aim p target replacement) :
    Along (o.Orderly aim) p (Functor.discard (SimplifyM.replace target replacement)) fun _ q =>
      q.tree.IsTop target ∧ ∀ id, p.tree.IsTop id → id ≠ replacement → q.tree.IsTop id :=
  mono (discard (course o aim) (replace here fits)) fun _ _ _ ⟨_, holds⟩ => holds

theorem recordReplace (here : o.Orderly aim p p) (fits : o.Fits aim p target replacement) :
    Along (o.Orderly aim) p (SimplifyM.replaceAndRecord kind label target replacement) any :=
  (replaceAndRecord (course o aim) (replace here fits)).toAny

theorem remove (here : o.Orderly aim p p)
    (unmissed : aim = .names → p.tree.isWithin target p.root = true → o.Unmissed p target) :
    Along (o.Orderly aim) p (SimplifyM.remove target)
      fun _ q => ∀ id, p.tree.IsTop id → q.tree.IsTop id := by
  refine edit (course o aim) here fun _ q done => ?_
  simp only [bind_eq_ok_iff] at done
  obtain ⟨after, removed, same⟩ := done
  cases same
  have attached : p.isAttached target = true := by
    rw [Program.remove] at removed
    simp only [ite_throw_eq_ok_iff] at removed
    simpa using removed.1
  rw [isAttached_eq here.rooted.linked here.rooted.isTop.top] at attached
  exact ⟨here.remove removed fun isNames => unmissed isNames attached,
    (here.rooted.of_remove removed).2⟩

theorem adopt {node : Node NodeId} (here : o.Orderly aim p p) (simple : node.isSimple = true)
    (free : ∀ child ∈ node.children, p.tree.IsTop child ∧ child ≠ p.root)
    (distinct : node.children.Nodup) (operands : aim ≠ .links → ∀ child ∈ node.children,
      ¬o.tree.Allocated child ∧ (p.node child).isOperand = true) :
    Along (o.Orderly aim) p (SimplifyM.build (Tree.alloc node)) fun id q => q.tree.Allocated id ∧
      (aim ≠ .links → ¬o.tree.Allocated id ∧ (q.node id).isOperand = true) := by
  refine edit (course o aim) here fun id q done => ?_
  cases done
  refine ⟨here.adopt simple free distinct operands, Tree.allocated_alloc.mpr (.inr rfl),
    fun isOther => ⟨?_, ?_⟩⟩
  · exact (here.neat isOther).tidy.not_allocated (Nat.lt_irrefl _)
  · change ((Tree.alloc node p.tree).2.node ⟨p.tree.size⟩).isOperand = true
    rw [Tree.node_alloc, if_pos rfl]
    exact Node.isOperand_of_isSimple simple

theorem place {action : StateM Tree NodeId} {put : NodeId → SimplifyM β} (here : o.Orderly aim p p)
    (spot : p.Spot aim target)
    (yields : Tree.Yields (o.Parts aim IsOperand p.tree) [] Tree.piece action)
    (puts : ∀ replacement q, o.Orderly aim p q → o.Fits aim q target replacement →
      (∀ id, p.tree.IsTop id → q.tree.IsTop id ∧ id ≠ replacement) →
        Along (o.Orderly aim) q (put replacement) post') :
    Along (o.Orderly aim) p (SimplifyM.build action >>= put) post' := by
  refine bind (course o aim) (build here yields) fun piece q leads made => ?_
  obtain ⟨grown, rfl, parts⟩ := made
  have member : piece ∈ Tree.piece piece := List.mem_singleton_self _
  have loose := parts.assembly.loose piece member
  refine puts piece _ leads (leads.stay.fits (spot.orderly leads) loose.allocated
    (fun isOther => parts.isNew isOther member) fun isOther => parts.good isOther piece member)
    fun id isTop => ?_
  refine ⟨⟨parts.assembly.grows.allocated isTop.allocated,
    (parts.assembly.grows.parent? isTop.allocated).trans isTop.top⟩, ?_⟩
  rintro rfl
  exact loose.new isTop.allocated

end SimplifyM.Along

end Unravel
