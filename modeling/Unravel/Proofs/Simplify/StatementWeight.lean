import Unravel.Proofs.Simplify.Lighten
import Unravel.Proofs.Simplify.Orderly

/-!
Rules that gather statements into one expression or declaration. Copies of parts of the statements
make a new piece while the statements themselves leave (`Program.Sheds`), so that what the
statements weigh beyond these parts is lost.
-/

namespace Unravel

open SimplifyM

variable {p q r : Program} {id : NodeId} {cost : Node Unit → ℕ}

theorem Tree.Linked.isWithin_sibling {t : Tree} {a b list : NodeId} (linked : t.Linked)
    (first : t.parent? a = some list) (second : t.parent? b = some list) (different : a ≠ b) :
    t.isWithin a b = false :=
  Bool.eq_false_iff.mpr
    fun within => different (linked.eq_of_isWithin_children first second Tree.isWithin_self within)

/-! ### Statements that leave -/

namespace Program

structure Sheds (p : Program) (cost : Node Unit → ℕ) (gone : List NodeId) (q : Program) : Prop where
  lost : q.weight (.sum cost) + p.tree.weights (.sum cost) gone ≤ p.weight (.sum cost)
  weight : ∀ {id}, p.tree.Allocated id → (∀ other ∈ gone, p.tree.isWithin other id = false) →
    q.tree.weight (.sum cost) id = p.tree.weight (.sum cost) id
  attached :
    ∀ {id}, p.tree.isWithin id p.root = true → (∀ other ∈ gone, p.tree.isWithin id other = false) →
    q.tree.isWithin id q.root = true
  top : ∀ {id}, p.tree.IsTop id → q.tree.IsTop id

theorem Sheds.refl (p : Program) :
    p.Sheds cost [] p := ⟨le_rfl, fun _ _ => rfl, fun attached _ => attached, id⟩

theorem isWithin_top_eq_false {inner : NodeId} (linked : p.tree.Linked)
    (isRoot : p.tree.IsTop p.root) (attached : p.tree.isWithin inner p.root = true)
    (isTop : p.tree.IsTop id) (notRoot : id ≠ p.root) :
    p.tree.isWithin inner id = false := by
  rw [Bool.eq_false_iff]
  intro within
  rcases linked.isWithin_linear within attached with above | above
  · exact notRoot ((Tree.isWithin_of_root isTop.top).mp above)
  · exact notRoot ((Tree.isWithin_of_root isRoot.top).mp above).symm

theorem Taken.sheds {target : NodeId} {others : List NodeId} (taken : p.Taken target q)
    (blank : cost .empty = 0) (alone : p.leaving target = target) (leads : p.Leads q)
    (afterLinked : q.tree.Linked) (tops : ∀ id, p.tree.IsTop id → q.tree.IsTop id)
    (apart :
      ∀ other ∈ others, p.tree.isWithin other p.root = true ∧ p.tree.isWithin target other = false ∧
        p.tree.isWithin other target = false) (sheds : q.Sheds cost others r) :
      p.Sheds cost (target :: others) r := by
  have linked := taken.linked
  have isTop := taken.sound.isTop
  have loses := taken.loses
  rw [alone] at loses
  have untouched {id : NodeId} (allocated : p.tree.Allocated id)
      (outside : p.tree.isWithin target id = false) :
      q.tree.weight (.sum cost) id = p.tree.weight (.sum cost) id :=
    taken.weight_of_outside allocated (by rwa [alone])
  have same {inner outer : NodeId} (attached : p.tree.isWithin inner p.root = true)
      (outside : p.tree.isWithin inner target = false) :
      q.tree.isWithin inner outer = p.tree.isWithin inner outer :=
    loses.isWithin_eq linked afterLinked isTop attached outside
  constructor
  · have first : q.weight (.sum cost) + p.tree.weight (.sum cost) target ≤
        p.weight (.sum cost) + 0 := by
      refine taken.weight_carried (Weighing.carries_sum cost _ 0) ?_ ?_
      · rw [alone, zero_add, add_zero]
      · change cost .empty + 0 + _ ≤ _
        rw [alone, blank, add_zero, zero_add, add_zero]
    have rest : q.tree.weights (.sum cost) others = p.tree.weights (.sum cost) others := by
      rw [Tree.weights, Tree.weights]
      congr 1
      refine List.map_congr_left fun other member => ?_
      obtain ⟨attached, outside, -⟩ := apart other member
      exact untouched (linked.allocated_of_isWithin attached isTop.allocated) outside
    have second := sheds.lost
    rw [rest] at second
    change _ + (p.tree.weight (.sum cost) target + p.tree.weights (.sum cost) others) ≤ _
    omega
  · intro id allocated outside
    rw [List.forall_mem_cons] at outside
    rw [← untouched allocated outside.1]
    refine sheds.weight (leads.allocated allocated) fun other member => ?_
    obtain ⟨attached, -, isOutside⟩ := apart other member
    rw [same attached isOutside]
    exact outside.2 other member
  · intro id attached outside
    rw [List.forall_mem_cons] at outside
    refine sheds.attached (loses.kept attached outside.1).1 fun other member => ?_
    rw [same attached outside.1]
    exact outside.2 other member
  · exact fun isTop => sheds.top (tops _ isTop)

structure Apart (p : Program) (statements : List NodeId) : Prop where
  attached : ∀ id ∈ statements, p.tree.isWithin id p.root = true
  isStatement : ∀ id ∈ statements, (p.node id).isStatement = true
  pairwise :
    statements.Pairwise fun a b => p.tree.isWithin a b = false ∧ p.tree.isWithin b a = false

theorem Apart.of_list {statements : List NodeId} {list : NodeId} (linked : p.tree.Linked)
    (attached : p.tree.isWithin list p.root = true) (distinct : statements.Nodup)
    (held : ∀ id ∈ statements, p.tree.parent? id = some list)
    (isStatement : ∀ id ∈ statements, (p.node id).isStatement = true) : p.Apart statements where
  attached id member := linked.isWithin_trans (linked.isWithin_of_parent (held id member)) attached
  isStatement := isStatement
  pairwise := distinct.imp_of_mem fun first second different =>
    ⟨linked.isWithin_sibling (held _ first) (held _ second) different,
      linked.isWithin_sibling (held _ second) (held _ first) (Ne.symm different)⟩

theorem Apart.grow {statements : List NodeId} {grown : Tree} (apart : p.Apart statements)
    (linked : p.tree.Linked) (isTop : p.tree.IsTop p.root) (grows : p.tree.Grows grown) :
    Program.Apart { p with tree := grown } statements where
  attached id member := by
    change grown.isWithin id p.root = true
    rw [grows.isWithin linked isTop.allocated]
    exact apart.attached id member
  isStatement id member := by
    rw [node, grows.node (linked.allocated_of_isWithin (apart.attached id member) isTop.allocated)]
    exact apart.isStatement id member
  pairwise := apart.pairwise.imp_of_mem fun {a b} first second outside => by
    have isAllocated {id : NodeId} (member : id ∈ statements) : p.tree.Allocated id :=
      linked.allocated_of_isWithin (apart.attached id member) isTop.allocated
    change grown.isWithin a b = false ∧ grown.isWithin b a = false
    rwa [grows.isWithin linked (isAllocated second), grows.isWithin linked (isAllocated first)]

section Taken

variable {target : NodeId} {others : List NodeId} (taken : p.Taken target q) (steady : p.Steady)
  (isApart : p.Apart (target :: others))

include taken steady isApart

theorem Taken.leaving_eq : p.leaving target = target :=
  (steady.removable_statement taken.attached (isApart.isStatement target (List.mem_cons_self ..))).2

theorem Taken.loses_statement : p.Loses target q := by
  have loses := taken.loses
  rwa [taken.leaving_eq steady isApart] at loses

theorem Taken.apart (after : q.Steady) (leads : p.Leads q) : q.Apart others := by
  have loses := taken.loses_statement steady isApart
  obtain ⟨attached, isStatement, pairwise⟩ := isApart
  rw [List.forall_mem_cons] at attached isStatement
  rw [List.pairwise_cons] at pairwise
  have same {inner outer : NodeId} (member : inner ∈ others) :
      q.tree.isWithin inner outer = p.tree.isWithin inner outer :=
    loses.isWithin_eq steady.linked after.linked steady.isTop (attached.2 inner member)
      (pairwise.1 inner member).2
  refine ⟨fun id member => (loses.kept (attached.2 id member) (pairwise.1 id member).2).1,
    fun id member => ?_, ?_⟩
  · have allocated := steady.linked.allocated_of_isWithin (attached.2 id member)
      steady.isTop.allocated
    rw [Program.node, Node.isStatement_congr (leads.tag allocated)]
    exact isStatement.2 id member
  · refine pairwise.2.imp_of_mem fun first second outside => ?_
    rwa [same first, same second]

end Taken

structure Gathers (p : Program) (cost : Node Unit → ℕ) (held statements : List NodeId)
    (grown : Tree) (q : Program) :
    Prop where
  lost : q.weight (.sum cost) + p.tree.weights (.sum cost) statements ≤ p.weight (.sum cost)
  held : ∀ id ∈ held, q.tree.IsTop id ∧ id ≠ q.root ∧
    q.tree.weight (.sum cost) id = grown.weight (.sum cost) id
  weight : ∀ {id}, p.tree.Allocated id → (∀ other ∈ statements, p.tree.isWithin other id = false) →
    q.tree.weight (.sum cost) id = p.tree.weight (.sum cost) id
  attached :
    ∀ {id}, p.tree.isWithin id p.root = true →
    (∀ other ∈ statements, p.tree.isWithin id other = false) →
    q.tree.isWithin id q.root = true

theorem Sheds.gathers {statements held : List NodeId} {grown : Tree} (steady : p.Steady)
    (apart : p.Apart statements) (building : p.tree.Building held grown) (root : q.root = p.root)
    (sheds : Program.Sheds { p with tree := grown } cost statements q) :
    p.Gathers cost held statements grown q := by
  have linked := steady.linked
  have isTop := steady.isTop
  have grows := building.grows
  have isAllocated {id : NodeId} (member : id ∈ statements) : p.tree.Allocated id :=
    linked.allocated_of_isWithin (apart.attached id member) isTop.allocated
  constructor
  · have lost := sheds.lost
    have same : grown.weights (.sum cost) statements = p.tree.weights (.sum cost) statements :=
      congrArg List.sum
        (List.map_congr_left fun id member => grows.weight_eq linked (isAllocated member))
    rwa [weight_grow linked isTop grows, same] at lost
  · intro id member
    have loose := building.loose id member
    have isLoose : grown.IsTop id := ⟨loose.allocated, loose.detached⟩
    have notRoot : id ≠ p.root := by
      rintro rfl
      exact loose.new isTop.allocated
    have grownTop := grows.isTop isTop.allocated isTop.top
    rw [root]
    refine ⟨sheds.top isLoose, notRoot, sheds.weight loose.allocated fun other isStatement => ?_⟩
    exact isWithin_top_eq_false (p := { p with tree := grown }) grows.linked
      ⟨grownTop.1, grownTop.2⟩ ((apart.grow linked isTop grows).attached other isStatement)
      isLoose notRoot
  · intro id allocated outside
    refine (sheds.weight (grows.allocated allocated) fun other member => ?_).trans
      (grows.weight_eq linked allocated)
    exact (grows.isWithin linked allocated).trans (outside other member)
  · intro id attached outside
    refine sheds.attached ((grows.isWithin linked isTop.allocated).trans attached)
      fun other member => ?_
    exact (grows.isWithin linked (isAllocated member)).trans (outside other member)

end Program

theorem SimplifyM.Surely.removeStatements {ι : Type} {items : List ι} {place : ι → NodeId}
    (cost : Node Unit → ℕ) (steady : p.Steady) (blank : cost .empty = 0)
    (apart : p.Apart (items.map place)) :
    Surely p (forIn items PUnit.unit fun item _ => do
        SimplifyM.remove (place item)
        return ForInStep.yield PUnit.unit) fun _ q => p.Sheds cost (items.map place) q := by
  induction items generalizing p with
  | nil => exact .pure steady (.refl p)
  | cons item rest induction =>
    rw [List.map_cons] at apart
    obtain ⟨removable, alone⟩ :=
      steady.removable_statement (apart.attached _ (List.mem_cons_self ..))
        (apart.isStatement _ (List.mem_cons_self ..))
    rw [List.forIn_cons, List.map_cons, bind_assoc]
    refine .bind (Surely.remove steady removable) fun _ q steadyAfter leads ⟨taken, tops⟩ => ?_
    rw [pure_bind]
    refine .mono (induction steadyAfter (taken.apart steady apart steadyAfter leads))
      fun _ r sheds => ?_
    exact taken.sheds blank alone leads steadyAfter.linked tops (fun other member =>
      ⟨apart.attached other (List.mem_cons_of_mem _ member),
        (List.pairwise_cons.mp apart.pairwise).1 other member⟩) sheds

/-! ### Pieces that are made first and put into place last -/

theorem SimplifyM.Surely.built {M α : Type} [AddCommMonoid M] [LinearOrder M] {W : Weighing M}
    {made : α → List NodeId} {action : StateM Tree α} {bound : M} (steady : p.Steady)
    (adds : p.tree.Adds W [] made action bound) :
    Surely p (SimplifyM.build action) fun result q => ∃ grown, q = { p with tree := grown } ∧
      p.tree.Building (made result) grown ∧ grown.weights W (made result) ≤ bound := by
  have start := Tree.Building.start steady.linked steady.wellBound steady.nonempty
  have building := adds.makes p.tree [] p.tree start
  have light := adds.weights_le (show p.tree.Building ([] ++ []) p.tree from start)
  rw [List.append_nil] at building
  refine .mono (.buildPieces _ steady building) fun result q ⟨isGrown, isResult⟩ => ?_
  subst isResult
  exact ⟨_, isGrown, building, by simpa [Tree.weights] using light⟩

theorem SimplifyM.Surely.gather {ι : Type} {items : List ι} {place : ι → NodeId}
    {held : List NodeId} {grown : Tree} (cost : Node Unit → ℕ) (steady : p.Steady)
    (blank : cost .empty = 0) (apart : p.Apart (items.map place))
    (building : p.tree.Building held grown) :
    Surely { p with tree := grown } (forIn items PUnit.unit fun item _ => do
        SimplifyM.remove (place item)
        return ForInStep.yield PUnit.unit)
          fun _ q => p.Gathers cost held (items.map place) grown q := by
  refine .monoAfter (Surely.removeStatements cost (steady.grow building).1 blank
    (apart.grow steady.linked steady.isTop building.grows)) fun _ q _ leads sheds => ?_
  exact sheds.gathers steady apart building leads.root

theorem Program.Replaced.weight_add_le {target replacement : NodeId}
    (replaced : p.Replaced target replacement q) (cost : Node Unit → ℕ) :
    q.weight (.sum cost) + p.tree.weight (.sum cost) target ≤
      p.weight (.sum cost) + p.tree.weight (.sum cost) replacement := by
  refine replaced.weight_carried (Weighing.carries_sum cost _ _) fun x lighter => ?_
  rw [add_comm]
  exact Nat.add_le_add_left lighter _

theorem SimplifyM.Surely.adopt {β : Type} {put : NodeId → SimplifyM β} {target : NodeId}
    (node : Node NodeId) (cost : Node Unit → ℕ) (steady : p.Steady) (there : node ≠ .empty)
    (loose : ∀ child ∈ node.children, p.tree.IsTop child ∧ child ≠ p.root)
    (distinct : node.children.Nodup)
    (plain : ∀ part ∈ [.target, .name, .params, .declarators], node.part part = [])
    (free : p.Free target) (attached : p.tree.isWithin target p.root = true)
    (notRoot : target ≠ p.root)
    (puts : ∀ piece q, q.Steady → q.Free target → q.tree.Allocated piece →
      q.Replaceable target piece →
      Surely q (put piece) fun _ r => q.Replaced target piece r) :
    Surely p (SimplifyM.build (Tree.alloc node) >>= put) fun _ r =>
      r.weight (.sum cost) ≤
        p.weight (.sum cost) + (cost node.tag + p.tree.weights (.sum cost) node.children) := by
  have linked := steady.linked
  have isTop := steady.isTop
  obtain ⟨after, leads⟩ := steady.adopt loose distinct plain
  have afterLinked : (Tree.alloc node p.tree).2.Linked := after.linked
  have isAllocated {child : NodeId} (member : child ∈ node.children) : p.tree.Allocated child :=
    (loose child member).1.allocated
  have same {id : NodeId} (allocated : p.tree.Allocated id) :
      (Tree.alloc node p.tree).2.weight (.sum cost) id = p.tree.weight (.sum cost) id :=
    (Tree.Extends.alloc node p.tree).weight_eq linked afterLinked allocated
  have weighs : (Tree.alloc node p.tree).2.weight (.sum cost) ⟨p.tree.size⟩ =
      cost node.tag + p.tree.weights (.sum cost) node.children := by
    refine (afterLinked.weight_of_node _ there (by rw [Tree.node_alloc, if_pos rfl])).trans ?_
    exact congrArg (cost node.tag + ·) (congrArg List.sum (List.map_congr_left fun child member =>
      same (isAllocated member)))
  have isNew := p.tree.not_allocated_next
  have detached : (Tree.alloc node p.tree).2.parent? ⟨p.tree.size⟩ = none := by
    rw [Tree.parent?_alloc fun child => isAllocated,
      if_neg fun member => isNew (isAllocated member)]
    exact Tree.Linked.parent?_of_not_allocated isNew
  have stays : (Tree.alloc node p.tree).2.isWithin target p.root = true := by
    rw [((linked.unchanged_alloc isTop loose).alike linked isTop.top).isWithin linked afterLinked
      attached, attached]
  refine .bind (.buildAny rfl after leads) fun piece q steadyAfter _ ⟨isAfter, isPiece⟩ => ?_
  subst isAfter isPiece
  refine .mono (puts _ _ steadyAfter (free.leads leads)
    (Tree.allocated_alloc.mpr (.inr rfl)) ⟨?_, notRoot, detached, ?_⟩)
    fun _ r replaced => ?_
  · rwa [Program.isAttached_eq steadyAfter.linked steadyAfter.isTop.top]
  · intro isRoot
    exact isNew ((show p.root = ⟨p.tree.size⟩ from isRoot.symm) ▸ isTop.allocated)
  · have placed := replaced.weight_add_le cost
    have whole : Program.weight { p with tree := (Tree.alloc node p.tree).2 } (.sum cost) =
        p.weight (.sum cost) :=
      same isTop.allocated
    rw [whole] at placed
    change _ ≤ _ + (Tree.alloc node p.tree).2.weight (.sum cost) ⟨p.tree.size⟩ at placed
    omega

theorem sum_add_length_le {α : Type} {l : List α} {f g : α → ℕ}
    (each : ∀ item ∈ l, f item + 1 ≤ g item) :
    (l.map f).sum + l.length ≤ (l.map g).sum := by
  induction l with
  | nil => exact le_rfl
  | cons head rest induction =>
    rw [List.forall_mem_cons] at each
    have rest := induction each.2
    have first := each.1
    rw [List.map_cons, List.map_cons, List.sum_cons, List.sum_cons, List.length_cons]
    omega

/-! ### Object literals -/

namespace ObjectLiteral

def statementCost : Node Unit → ℕ
  | .expressionStatement _ => 1
  | _ => 0

def expressionStatements : Weighing ℕ := .sum statementCost

theorem map_statement_entries (p : Program) (object : EmptyObject) (statements : List NodeId) :
    ((entries p object statements).map Entry.statement).Sublist statements := by
  induction statements with
  | nil => exact .refl _
  | cons statement rest induction =>
    rw [entries]
    split
    · rename_i entry added
      obtain ⟨_, _, _, _, _, same, -⟩ := of_added? added
      rw [List.map_cons, same]
      exact induction.cons_cons statement
    · split
      · exact List.nil_sublist _
      · exact induction.cons statement

theorem nodup_statements {t : Tree} {list : NodeId} {statements : List NodeId} (linked : t.Linked)
    (isList : (t.node list).statements? = some statements) : statements.Nodup := by
  have distinct := linked.nodup_children list
  cases shape : t.node list <;> simp_all [Node.statements?, Node.children, List.nodup_append]

theorem nodup_followingStatements (linked : p.tree.Linked) (statement : NodeId) :
    (p.tree.followingStatements statement).Nodup := by
  unfold Tree.followingStatements
  split
  · rename_i statements found
    obtain ⟨list, -, isList⟩ := Option.bind_eq_some_iff.mp found
    exact (nodup_statements linked isList).sublist
      ((List.drop_sublist ..).trans (List.dropWhile_sublist _))
  · exact List.nodup_nil

theorem exists_apart_of_plan? {declarator : NodeId} {object : EmptyObject} {entries : List Entry}
    (steady : p.Steady) (attached : p.tree.isWithin declarator p.root = true)
    (planned : plan? p declarator = some (object, entries)) :
    p.Apart (entries.map Entry.statement) ∧ p.tree.isWithin object.init p.root = true ∧
      ∀ statement ∈ entries.map Entry.statement, p.tree.isWithin object.init statement = false := by
  have linked := steady.linked
  obtain ⟨isEmpty, declaration, held, isEntries, nonempty⟩ := of_plan? planned
  obtain ⟨target, shape, -⟩ := shape_of_emptyObject? isEmpty
  have initHeld : p.tree.parent? object.init = some declarator := by
    rw [← linked.mem_children, show p.tree.node declarator = _ from shape]
    simp [Node.children]
  have distinct : (entries.map Entry.statement).Nodup := by
    rw [isEntries]
    exact (nodup_followingStatements linked declaration).sublist (map_statement_entries p object _)
  have attachedDeclaration :=
    linked.isWithin_root_of_above steady.isTop attached (linked.isWithin_of_parent held)
  -- Every entry is one of the list in which the declaration stands.
  have each (entry : Entry) (member : entry ∈ entries) :
      ∃ expression, p.node entry.statement = .expressionStatement expression ∧
      p.tree.isWithin object.init entry.statement = false ∧
      p.tree.parent? entry.statement = p.tree.parent? declaration ∧
        (p.tree.parent? declaration).isSome = true := by
    obtain ⟨other, list, statements, expression, left, _, _, _, otherHeld, above,
      isList, isStatement, statementShape, expressionShape, -⟩ := of_mem_plan planned member
    rw [held, Option.some.injEq] at otherHeld
    subst otherHeld
    have inList : p.tree.parent? entry.statement = some list := by
      rw [← linked.mem_children]
      cases shape : p.node list <;> simp_all [Node.statements?, Node.children, Program.node]
    have different : declaration ≠ entry.statement := by
      rintro same
      have member := linked.mem_children.mpr held
      rw [same, show p.tree.node entry.statement = _ from statementShape] at member
      rw [List.mem_singleton.mp member, expressionShape] at shape
      cases shape
    refine ⟨expression, statementShape, Bool.eq_false_iff.mpr fun within => different ?_,
      inList.trans above.symm, by rw [above]; rfl⟩
    exact linked.eq_of_isWithin_children above inList
      (linked.isWithin_trans (linked.isWithin_of_parent initHeld) (linked.isWithin_of_parent held))
      within
  refine ⟨?_, linked.isWithin_trans (linked.isWithin_of_parent initHeld) attached,
    fun statement member => ?_⟩
  · obtain ⟨first, isFirst⟩ := List.exists_mem_of_ne_nil entries nonempty
    obtain ⟨_, -, -, -, listed⟩ := each first isFirst
    obtain ⟨list, above⟩ := Option.isSome_iff_exists.mp listed
    refine .of_list linked (linked.isWithin_root_of_above steady.isTop attachedDeclaration
      (linked.isWithin_of_parent above)) distinct (fun id member => ?_) fun id member => ?_
    · obtain ⟨entry, isEntry, rfl⟩ := List.mem_map.mp member
      obtain ⟨_, -, -, inList, -⟩ := each entry isEntry
      exact inList.trans above
    · obtain ⟨entry, isEntry, rfl⟩ := List.mem_map.mp member
      obtain ⟨_, statementShape, -⟩ := each entry isEntry
      rw [statementShape]
      rfl
  · obtain ⟨entry, isEntry, rfl⟩ := List.mem_map.mp member
    obtain ⟨_, -, outside, -⟩ := each entry isEntry
    exact outside

/-- What the copies in a property weigh. -/
def Entry.weight (t : Tree) (entry : Entry) : ℕ :=
  match entry.key with
  | .computed key => t.weight expressionStatements key + t.weight expressionStatements entry.value
  | _ => t.weight expressionStatements entry.value

theorem adds_property {t : Tree} (linked : t.Linked) {entry : Entry}
    (allocated : t.Allocated entry.value)
    (keyAllocated : ∀ key, entry.key = .computed key → t.Allocated key) :
    t.Adds expressionStatements [] Tree.piece (property entry) (entry.weight t) := by
  have value := Tree.adds_copy (W := expressionStatements) linked entry.value allocated
  have labelled {label : StateM Tree NodeId}
      (labelAdds : t.Adds expressionStatements [] Tree.piece label 0) (value : NodeId) :
      t.Adds expressionStatements [value] Tree.piece
        (do Tree.alloc (.property (← label) value false)) (0 + 0) :=
    Tree.adds_labelled labelAdds (fun _ => .refl _) (by simp [Node.part]) fun _ sum => le_of_eq rfl
  unfold Entry.weight
  cases shape : entry.key with
  | named name =>
    rw [← zero_add (t.weight _ _), property, shape]
    exact .bind value
      fun value => labelled (Tree.adds_leaf rfl (by simp [Node.part]) fun sum => le_of_eq rfl) value
  | quoted name =>
    rw [← zero_add (t.weight _ _), property, shape]
    exact .bind value
      fun value => labelled (Tree.adds_leaf rfl (by simp [Node.part]) fun sum => le_of_eq rfl) value
  | computed key =>
    change t.Adds _ [] _ (property entry) (t.weight _ key + t.weight _ entry.value)
    rw [← zero_add (t.weight _ key), property, shape]
    refine .bind value fun value => .bind
      ((Tree.adds_copy linked key (keyAllocated key shape)).frame (Tree.piece value))
      fun label => ?_
    exact Tree.adds_alloc (.property label value true) (by simp [Node.part]) fun sum => le_of_eq rfl

theorem weight_lt_of_mem_plan {declarator : NodeId} {object : EmptyObject} {entries : List Entry}
    {entry : Entry} (linked : p.tree.Linked) (planned : plan? p declarator = some (object, entries))
    (member : entry ∈ entries) :
    (p.tree.Allocated entry.value ∧ ∀ key, entry.key = .computed key → p.tree.Allocated key) ∧
      entry.weight p.tree + 1 ≤ p.tree.weight expressionStatements entry.statement := by
  obtain ⟨_, _, _, expression, target, base, label, _, -, -, -, -, statementShape,
    expressionShape, targetShape, keyed⟩ :=
      of_mem_plan planned member
  have isAllocated {parent child : NodeId} (isChild : child ∈ (p.node parent).children) :
      p.tree.Allocated child :=
    Tree.allocated_of_parent? (linked.mem_children.mp isChild)
  have statementWeight : p.tree.weight expressionStatements entry.statement =
      1 + (p.tree.weight expressionStatements expression + 0) :=
    linked.weight_of_node expressionStatements (by simp) statementShape
  have expressionWeight : p.tree.weight expressionStatements expression =
      0 + (p.tree.weight expressionStatements target +
        (p.tree.weight expressionStatements entry.value + 0)) :=
    linked.weight_of_node expressionStatements (by simp) expressionShape
  have targetWeight : p.tree.weight expressionStatements target =
      0 + (p.tree.weight expressionStatements base +
        (p.tree.weight expressionStatements label + 0)) :=
    linked.weight_of_node expressionStatements (by simp) targetShape
  refine ⟨⟨isAllocated (by rw [expressionShape]; simp [Node.children]), fun key isKey => ?_⟩, ?_⟩
  · rw [keyed key isKey]
    exact isAllocated (by rw [targetShape]; simp [Node.children])
  · unfold Entry.weight
    split
    · rename_i key isKey
      rw [keyed key isKey]
      omega
    · omega

theorem lightens (steady : p.Steady) :
    Surely p run fun changed q => True ∧ p.Lightens expressionStatements changed q := by
  refine .visit (fun _ => True) steady trivial fun declarator q steady _ _ _ attached => .program ?_
  split
  · exact .pure steady ⟨trivial, .refl q⟩
  · rename_i object entries planned
    have linked := steady.linked
    obtain ⟨apart, initAttached, initOutside⟩ := exists_apart_of_plan? steady attached planned
    have initShape := shape_of_plan? planned
    have parts (entry : Entry) (member : entry ∈ entries) :=
      weight_lt_of_mem_plan linked planned member
    refine .bind (Surely.built steady (Tree.Adds.mapM entries fun entry member =>
      adds_property linked (parts entry member).1.1 (parts entry member).1.2))
      fun properties r steadyGrown leads made => ?_
    obtain ⟨grown, rfl, building, light⟩ := made
    -- The properties hang nowhere until all statements are gone.
    refine .bind (Surely.gather statementCost steady rfl apart building)
      fun _ r steadyAfter further gathers => ?_
    have free : q.Free object.init := .of_isPlain steady (by rw [initShape]; rfl)
    have notRoot : object.init ≠ r.root := by
      rw [(leads.trans further).root]
      exact steady.ne_root fun body same => by
        rw [initShape] at same
        cases same
    refine .mono (Surely.adopt (.object properties) statementCost steadyAfter (by simp)
      (fun property member => ⟨(gathers.held property member).1,
        (gathers.held property member).2.1⟩) building.distinct
      (by simp [Node.part]) (free.leads (leads.trans further))
      (gathers.attached initAttached initOutside) notRoot
        fun literal s steady free allocated possible => ?_)
        fun changed s made => ⟨trivial, .of_lt ?_⟩
    · refine .bind (Surely.discardReplace steady free allocated possible)
        fun _ _ steady _ replaced => ?_
      exact .bind (.record _ _ _ steady) fun _ _ steady _ same => .pure steady (same ▸ replaced)
    · have lost := gathers.lost
      have same : r.tree.weights (.sum statementCost) properties =
          grown.weights (.sum statementCost) properties :=
        congrArg List.sum
          (List.map_congr_left fun property member => (gathers.held property member).2.2)
      have heavier := sum_add_length_le (g := q.tree.weight expressionStatements ∘ Entry.statement)
        fun entry member =>
          (parts entry member).2
      have positive := List.length_pos_of_ne_nil (of_plan? planned).2.choose_spec.2.2
      unfold expressionStatements at light heavier ⊢
      rw [Tree.weights, List.map_map] at lost
      change s.weight (.sum statementCost) ≤ r.weight (.sum statementCost) +
        (0 + r.tree.weights (.sum statementCost) properties) at made
      rw [same] at made
      exact Nat.lt_of_lt_of_le (by omega) lost

end ObjectLiteral

/-! ### Classes -/

namespace ClassForm

def declarationCost : Node Unit → ℕ
  | .function f => if f.kind = .declaration then 1 else 0
  | _ => 0

def functionDeclarations : Weighing ℕ := .sum declarationCost

theorem adds_memberFunction (t : Tree) (kind : MethodKind) (name : String) (value : NodeId) :
    t.Adds functionDeclarations [value] Tree.piece (Tree.memberFunction kind name value)
      (0 + 0) := by
  have label : t.Adds functionDeclarations [] Tree.piece (Tree.identifier name) 0 :=
    Tree.adds_leaf rfl (by simp [Node.part]) fun sum => le_of_eq rfl
  rw [Tree.memberFunction]
  exact Tree.adds_labelled label (fun _ => .refl _) (by simp [Node.part]) fun _ sum => le_of_eq rfl

theorem adds_classDeclaration (t : Tree) (name : String) (members : List NodeId) :
    t.Adds functionDeclarations members Tree.piece (Tree.classDeclaration name members) 0 where
  makes := Tree.makes_classDeclaration name members
  kept _ := (Tree.Extends.alloc _ _).trans (.alloc _ _)
  weights_le {held mid} building := by
    have named := Tree.makes_identifier name t (members ++ held) mid building
    have after := Tree.makes_classDeclaration name members t held mid building
    have label :
        (Tree.identifier name mid).2.weight functionDeclarations (Tree.identifier name mid).1 = 0 :=
      Tree.Building.weight_alloc (.identifier name)
        (show t.Building ([] ++ (members ++ held)) mid from building) named.grows.linked
    have kept : (Tree.identifier name mid).2.weights functionDeclarations members =
        mid.weights functionDeclarations members := by
      refine congrArg List.sum (List.map_congr_left fun member isMember => ?_)
      exact (Tree.Extends.alloc _ mid).weight_eq building.grows.linked named.grows.linked
        (building.loose member (List.mem_append_left _ isMember)).allocated
    have weighs := Tree.Building.weight_alloc (W := functionDeclarations)
      (.classDef ⟨some (Tree.identifier name mid).1, none, members, true⟩) named after.grows.linked
    change (Tree.classDeclaration name members mid).2.weight functionDeclarations
      (Tree.classDeclaration name members mid).1 + 0 ≤ _
    refine (le_of_eq weighs).trans ?_
    change 0 +
      ((Tree.identifier name mid).2.weight functionDeclarations (Tree.identifier name mid).1 +
        (Tree.identifier name mid).2.weights functionDeclarations members) ≤ _
    rw [label, kept, zero_add]

theorem adds_classAround {t : Tree} (linked : t.Linked) (name : String) {methods : List Method}
    (allocated : ∀ method ∈ methods, t.Allocated method.function) (function : NodeId) :
    t.Adds functionDeclarations [function] Tree.piece (classAround name methods function)
      (methods.map fun method => t.weight functionDeclarations method.function).sum := by
  have others := Tree.Adds.mapM (W := functionDeclarations) (f := fun method : Method => do
      Tree.memberFunction .method method.name (← Tree.copy method.function)) methods
        fun method member =>
          .bind (Tree.adds_copy linked method.function (allocated method member)) fun copy =>
            adds_memberFunction t .method method.name copy
  have adds : t.Adds functionDeclarations [function] Tree.piece (classAround name methods function)
      (0 + _ + (0 + 0)) :=
    .bind (adds_memberFunction t .constructor "constructor" function) fun first =>
      .bind (others.frame (Tree.piece first)) fun others =>
        (adds_classDeclaration t name (first :: others)).perm
          (List.perm_append_singleton first others)
  simpa using adds

theorem weight_constructorOf_le {t : Tree} (linked : t.Linked) (start : t.Building [] t)
    {f : Function NodeId} (allocated : ∀ child ∈ f.params ++ [f.body], t.Allocated child)
    (patterns : ∀ param ∈ f.params, t.IsPattern param) :
    (constructorOf f t).2.weight functionDeclarations (constructorOf f t).1 ≤
      t.weights functionDeclarations (f.params ++ [f.body]) := by
  let parts : StateM Tree (List NodeId × NodeId) := do
    let params ← f.params.mapM Tree.copy
    let body ← Tree.copy f.body
    return (params, body)
  have adds : t.Adds functionDeclarations [] (fun result => result.1 ++ [result.2]) parts
      (0 + t.weight functionDeclarations f.body +
        (f.params.map (t.weight functionDeclarations)).sum) :=
    .bind (Tree.Adds.mapM f.params fun param member =>
      Tree.adds_copy linked param (allocated param (List.mem_append_left _ member))) fun params =>
        .bind ((Tree.adds_copy linked f.body (allocated f.body (by simp))).frame params) fun body =>
          .pure (List.perm_append_singleton body params).symm
  have building := adds.makes t [] t start
  have light := adds.weights_le (show t.Building ([] ++ []) t from start)
  have weighs := Tree.Building.weight_alloc (W := functionDeclarations)
    (.function ⟨.expression, none, (parts t).1.1, (parts t).1.2, false, false⟩) building
    (building_constructorOf start f patterns).grows.linked
  change (constructorOf f t).2.weight functionDeclarations (constructorOf f t).1 =
    0 + (parts t).2.weights functionDeclarations ((parts t).1.1 ++ [(parts t).1.2]) at weighs
  have sameWeight : t.weights functionDeclarations (f.params ++ [f.body]) =
      (f.params.map (t.weight functionDeclarations)).sum +
        t.weight functionDeclarations f.body := by
    rw [Tree.weights_append]
    simp [Tree.weights]
  have none : t.weights functionDeclarations [] = 0 := rfl
  omega

theorem Fits.apart {function target list : NodeId} {plan : Plan} {binding : BindingId}
    (fits : Fits p function plan target binding list) (steady : p.Steady)
    (attached : p.tree.isWithin function p.root = true) :
    p.Apart (plan.methods.map Method.statement) ∧
      ∀ statement ∈ plan.methods.map Method.statement,
        p.tree.isWithin function statement = false ∧
        p.tree.isWithin statement function = false := by
  have linked := steady.linked
  have distinct : (plan.methods.map Method.statement).Nodup := by
    refine List.pairwise_map.mpr (fits.collected.distinct.imp_of_mem fun first second
      different same => ?_)
    obtain ⟨_, -, isFirst⟩ := fits.exists_use first
    obtain ⟨_, -, isSecond⟩ := fits.exists_use second
    obtain rfl := isSecond.eq_of_statement_eq isFirst same
    have isSame :=
      ((method?_eq_some_iff linked).mpr isFirst).symm.trans
        ((method?_eq_some_iff linked).mpr isSecond)
    exact different (congrArg Method.name (Option.some.inj isSame))
  have each (statement : NodeId) (member : statement ∈ plan.methods.map Method.statement) :
      p.tree.parent? statement = some list ∧
        ∃ expression, p.node statement = .expressionStatement expression := by
    obtain ⟨method, isMethod, rfl⟩ := List.mem_map.mp member
    obtain ⟨_, -, defines⟩ := fits.exists_use isMethod
    exact ⟨defines.parent?, defines.exists_expression⟩
  refine ⟨.of_list linked
    (linked.isWithin_root_of_above steady.isTop attached (linked.isWithin_of_parent fits.held))
    distinct (fun statement member => (each statement member).1) fun statement member => ?_,
      fun statement member => ?_⟩
  · obtain ⟨-, _, statementShape⟩ := each statement member
    rw [statementShape]
    rfl
  · obtain ⟨inList, _, statementShape⟩ := each statement member
    have different : function ≠ statement := by
      rintro rfl
      rw [fits.shape] at statementShape
      cases statementShape
    exact ⟨linked.isWithin_sibling fits.held inList different,
      linked.isWithin_sibling inList fits.held different.symm⟩

theorem weight_classOf_lt {t : Tree} {function : NodeId} {f : Function NodeId}
    {methods : List Method} (linked : t.Linked)
    (start : t.Building [] t) (shape : t.node function = .function f)
    (isDeclaration : f.kind = .declaration) (patterns : ∀ param ∈ f.params, t.IsPattern param)
    (name : String) (allocated : ∀ method ∈ methods, t.Allocated method.statement)
    (inside : ∀ method ∈ methods, t.isWithin method.function method.statement = true) :
    (classOf f name methods t).2.weight functionDeclarations (classOf f name methods t).1 <
      t.weight functionDeclarations function +
        t.weights functionDeclarations (methods.map Method.statement) := by
  have partAllocated (child : NodeId) (member : child ∈ f.params ++ [f.body]) :
      t.Allocated child := by
    have held : child ∈ (t.node function).children := by
      rw [shape]
      simp only [Node.children, List.mem_append] at member ⊢
      tauto
    exact Tree.allocated_of_parent? (linked.mem_children.mp held)
  have constructorLight := weight_constructorOf_le linked start partAllocated patterns
  have methodAllocated (method : Method) (member : method ∈ methods) :
      t.Allocated method.function :=
    linked.allocated_of_isWithin (inside method member) (allocated method member)
  have classLight := (adds_classAround linked name methodAllocated (constructorOf f t).1).weights_le
    (building_constructorOf start f patterns)
  have methodsLight :
      (methods.map fun method => t.weight functionDeclarations method.function).sum ≤
        t.weights functionDeclarations (methods.map Method.statement) := by
    rw [Tree.weights, List.map_map]
    exact List.sum_le_sum fun method member =>
      linked.weight_le_of_isWithin functionDeclarations (allocated method member)
        (inside method member)
  have functionHeavy : t.weights functionDeclarations (f.params ++ [f.body]) <
      t.weight functionDeclarations function := by
    have weighs : t.weight functionDeclarations function =
        (if f.kind = .declaration then 1 else 0) +
          t.weights functionDeclarations (f.name.toList ++ (f.params ++ [f.body])) :=
      (linked.weight_of_node functionDeclarations (by simp) shape).trans
        (by rw [← List.append_assoc]; rfl)
    rw [if_pos isDeclaration, Tree.weights_append] at weighs
    omega
  rw [classOf_eq]
  change (classAround name methods (constructorOf f t).1 (constructorOf f t).2).2.weight
    functionDeclarations
      (classAround name methods (constructorOf f t).1 (constructorOf f t).2).1 + 0 ≤
    _ + ((constructorOf f t).2.weight functionDeclarations (constructorOf f t).1 + 0) at classLight
  omega

theorem lightens (steady : p.Steady) :
    Surely p run fun changed q => True ∧ p.Lightens functionDeclarations changed q := by
  refine .visit (fun _ => True) steady trivial
    fun function q steady _ _ _ attached => .program (.context fun c => ?_)
  split
  · exact .pure steady ⟨trivial, .refl q⟩
  · rename_i plan planned
    have linked := steady.linked
    obtain ⟨-, _, _, _, fits⟩ := (plan?_eq_some_iff linked).mp planned
    have shape := fits.shape
    obtain ⟨apart, aside⟩ := fits.apart steady attached
    have isPlain : q.Free function := .of_isPlain steady (by rw [shape]; rfl)
    have patterns (param : NodeId) (member : param ∈ plan.function.params) :=
      steady.isPattern_of_mem_params shape member
    have isAllocated {statement : NodeId} (member : statement ∈ plan.methods.map Method.statement) :
        q.tree.Allocated statement :=
      linked.allocated_of_isWithin (apart.attached statement member) steady.isTop.allocated
    have start := Tree.Building.start linked steady.wellBound steady.nonempty
    have building := building_classOf start plan.function patterns plan.name plan.methods
    have light := weight_classOf_lt linked start shape fits.isDeclaration patterns plan.name
      (fun method member => isAllocated (List.mem_map_of_mem member)) fun method member => by
        obtain ⟨_, -, defines⟩ := fits.exists_use member
        exact (defines.isWithin linked).2
    refine .bind (.buildPieces _ steady building)
      fun class_ r steadyGrown leads ⟨isGrown, isClass⟩ => ?_
    subst isGrown isClass
    refine .bind (Surely.gather declarationCost steady rfl apart building)
      fun _ r steadyAfter further gathers => ?_
    obtain ⟨isTop, notRoot, classSame⟩ := gathers.held _ (List.mem_singleton_self _)
    have stays := gathers.attached attached fun statement member => (aside statement member).1
    have functionSame :=
      gathers.weight isPlain.allocated fun statement member => (aside statement member).2
    have possible :
        r.Replaceable function (classOf plan.function plan.name plan.methods q.tree).1 := by
      refine ⟨by rwa [Program.isAttached_eq steadyAfter.linked steadyAfter.isTop.top], ?_,
        isTop.top, notRoot⟩
      rw [(leads.trans further).root]
      exact steady.ne_root fun body same => by
        rw [shape] at same
        cases same
    refine .bind (Surely.replace steadyAfter (isPlain.leads (leads.trans further))
      isTop.allocated possible) fun placed _ steadyThen _ replaced => ?_
    refine .bind (.record _ _ _ steadyThen)
      fun _ s steadyThen _ same => .pure steadyThen ⟨trivial, .of_lt ?_⟩
    subst same
    have lost := gathers.lost
    have placed := replaced.weight_add_le declarationCost
    rw [functionSame, classSame] at placed
    unfold functionDeclarations at light ⊢
    omega

end ClassForm

end Unravel
