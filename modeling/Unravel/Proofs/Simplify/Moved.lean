import Unravel.Proofs.Simplify.Between

/-!
Values that are moved into the objects that they fill.
-/

namespace Unravel

open SimplifyM Program

theorem Node.holdsOperands_of_isDeclarator {α : Type} {n : Node α}
    (isDeclarator : n.isDeclarator = true) :
    n.holdsOperands = true := by
  cases n <;> simp_all [Node.isDeclarator, holdsOperands, holdsStatements, isSwitch,
    isVariableDeclaration]

namespace Tree

variable {t mid after : Tree} {root : NodeId} {held : List NodeId} {f : NodeId → NodeId}
  {node : Node NodeId}

/-- A part of a tree stands in another one as well, and there it is made of new nodes. -/
structure Reproduced (t after : Tree) (root : NodeId) (f : NodeId → NodeId) : Prop extends
    t.Transplanted after root f where
  new : ∀ {id}, t.isWithin id root = true → ¬t.Allocated (f id) ∧ after.Allocated (f id)

theorem Reproduced.keep (reproduced : t.Reproduced mid root f)
    (kept : ∀ {id}, ¬t.Allocated id → mid.Allocated id →
      after.Allocated id ∧ after.node id = mid.node id) :
    t.Reproduced after root f where
  node within := (kept (reproduced.new within).1 (reproduced.new within).2).2.trans
    (reproduced.node within)
  injective := reproduced.injective
  new within :=
    ⟨(reproduced.new within).1, (kept (reproduced.new within).1 (reproduced.new within).2).1⟩

theorem Reproduced.alloc (reproduced : t.Reproduced mid root f) :
    t.Reproduced (Tree.alloc node mid).2 root f :=
  reproduced.keep fun _ allocated => ⟨allocated_alloc.mpr (.inl allocated),
    node_alloc_of_allocated allocated⟩

theorem Reproduced.grow (reproduced : t.Reproduced mid root f) (grows : mid.Grows after) :
    t.Reproduced after root f :=
  reproduced.keep fun _ allocated => ⟨grows.allocated allocated, grows.node allocated⟩

theorem Assembly.exists_reproduced (assembly : t.Assembly held mid) (linked : t.Linked)
    (allocated : t.Allocated root) :
    ∃ f, f root = (Tree.copy root mid).1 ∧ t.Reproduced (Tree.copy root mid).2 root f := by
  obtain ⟨copied, isCopy⟩ := assembly.grows.linked.copied assembly.nonempty root
  refine ⟨_, isCopy.symm, ⟨fun {id} within => ?_, fun {a b} first second => ?_⟩,
    fun {id} within => ?_⟩
  · rw [← assembly.grows.isWithin linked allocated] at within
    have isOld :=
      linked.allocated_of_isWithin ((assembly.grows.isWithin linked allocated).symm.trans within)
        allocated
    rw [← assembly.grows.node isOld]
    exact copied.node id within
  · rw [← assembly.grows.isWithin linked allocated] at first second
    exact copied.injective a b first second
  · rw [← assembly.grows.isWithin linked allocated] at within
    exact ⟨fun isOld => (copied.new id within).1 (assembly.grows.allocated isOld),
      (copied.new id within).2⟩

end Tree

namespace Program.Remnant

theorem stays {o p : Program} {may : NodeId → Prop} {id : NodeId} (remnant : o.Remnant may p)
    (attached : o.isAttached id = true) (plain : (o.node id).isVariableDeclaration = false)
    (outside : ∀ outer, may outer → o.tree.isWithin id outer = false) : p.isAttached id = true := by
  by_contra isGone
  rcases remnant.gone attached (Bool.eq_false_iff.mpr isGone) with
    isDeclaration | ⟨outer, isMay, within, -⟩
  · rw [plain] at isDeclaration
    cases isDeclaration
  · rw [outside outer isMay] at within
    cases within

end Program.Remnant

namespace ObjectLiteral

variable {entry : Entry} {t mid : Tree} {root : NodeId} {held : List NodeId}

/-- The value of an entry, or its key if this is computed. -/
def Entry.Has (entry : Entry) (root : NodeId) :
    Prop := root = entry.value ∨ entry.key = .computed root

theorem parent?_property {label value : NodeId} {computed : Bool}
    (labelAllocated : mid.Allocated label) (valueAllocated : mid.Allocated value) {child : NodeId}
    (isChild : child = label ∨ child = value) :
    (Tree.alloc (.property label value computed) mid).2.parent? child =
      some (Tree.alloc (.property label value computed) mid).1 := by
  have children : (Node.property label value computed).children = [label, value] := rfl
  rw [Tree.parent?_alloc (by simp [children, labelAllocated, valueAllocated]), children,
    if_pos (List.mem_pair.mpr isChild)]
  rfl

theorem exists_reproduced_property (assembly : t.Assembly held mid) (linked : t.Linked)
    (allocated : ∀ root, entry.Has root → t.Allocated root) (has : entry.Has root) :
    ∃ f, t.Reproduced (property entry mid).2 root f ∧
      (property entry mid).2.parent? (f root) = some (property entry mid).1 := by
  obtain ⟨statement, key, value⟩ := entry
  obtain ⟨f, isValue, ofValue⟩ := assembly.exists_reproduced linked (allocated value (.inl rfl))
  have copied := assembly.copy value
  have there := (copied.loose _ (List.mem_cons_self ..)).allocated
  have isNew (label : Node NodeId) : (Tree.alloc label (Tree.copy value mid).2).2.Allocated
      (Tree.alloc label (Tree.copy value mid).2).1 := Tree.allocated_alloc.mpr (.inr rfl)
  have stays (label : Node NodeId) : (Tree.alloc label (Tree.copy value mid).2).2.Allocated
      (Tree.copy value mid).1 := Tree.allocated_alloc.mpr (.inl there)
  cases key with
  | named name =>
    obtain rfl : root = value := has.resolve_right nofun
    exact ⟨f, ofValue.alloc.alloc, parent?_property (isNew _) (stays _) (.inr isValue)⟩
  | quoted name =>
    obtain rfl : root = value := has.resolve_right nofun
    exact ⟨f, ofValue.alloc.alloc, parent?_property (isNew _) (stays _) (.inr isValue)⟩
  | computed label =>
    obtain ⟨g, isLabel, ofLabel⟩ := copied.exists_reproduced linked (allocated label (.inr rfl))
    have further :=
      (Tree.yields_copy_assembly label) [] _ (.start copied.grows.linked copied.nonempty)
    have labelThere := (further.loose _ (List.mem_cons_self ..)).allocated
    have stays := further.grows.allocated there
    rcases has with rfl | isRoot
    · exact ⟨f, (ofValue.grow further.grows).alloc, parent?_property labelThere stays
        (.inr isValue)⟩
    · obtain rfl := Key.computed.inj isRoot
      exact ⟨g, ofLabel.alloc, parent?_property labelThere stays (.inl isLabel)⟩

theorem exists_reproduced_of_mem {entries : List Entry} (linked : t.Linked) (nonempty : t.size ≠ 0)
    (allocated : ∀ entry ∈ entries, ∀ root, entry.Has root → t.Allocated root)
    (member : entry ∈ entries) (has : entry.Has root) :
    ∃ f, ∃ property ∈ (entries.mapM ObjectLiteral.property t).1,
      t.Reproduced (entries.mapM ObjectLiteral.property t).2 root f ∧
        (entries.mapM ObjectLiteral.property t).2.parent? (f root) = some property := by
  have each := (Tree.Assembly.start linked nonempty).forall₂_mapM entries (fun entry _ t => ?_)
    (fun entry property after => ∀ root, entry.Has root →
      ∃ f, t.Reproduced after root f ∧ after.parent? (f root) = some property)
    (fun entry member held mid assembly root has =>
      exists_reproduced_property assembly linked (allocated entry member) has)
    fun linkedMid there grows held root has => ?_
  · obtain ⟨same, each⟩ := List.forall₂_iff_get.mp each
    obtain ⟨position, bound, rfl⟩ := List.mem_iff_getElem.mp member
    obtain ⟨f, reproduced, held⟩ := each position bound (same ▸ bound) root has
    exact ⟨f, _, List.get_mem _ ⟨position, same ▸ bound⟩, reproduced, held⟩
  · exact yields_property (Tree.workshop_assembly t) entry (Tree.yields_copy_assembly _)
      fun key _ => Tree.yields_copy_assembly key
  · obtain ⟨f, reproduced, isHeld⟩ := held root has
    refine ⟨f, reproduced.grow grows, ?_⟩
    rw [grows.parent? (Tree.allocated_of_parent? isHeld), isHeld]

variable {p q : Program} {declarator literal : NodeId} {object : EmptyObject} {entries : List Entry}

theorem Filled.exists_reproduced (steady : p.Steady)
    (planned : plan? p declarator = some (object, entries))
    (filled : Filled p declarator object entries (entries.mapM property p.tree).1
      (entries.mapM property p.tree).2 literal q) (member : entry ∈ entries)
      (has : entry.Has root) :
    ∃ f, p.tree.Reproduced q.tree root f ∧ q.tree.isWithin (f root) literal = true := by
  have building := building_properties steady entries
  have allocated : ∀ entry ∈ entries, ∀ root, entry.Has root → p.tree.Allocated root := by
    intro entry member root has
    obtain ⟨value, key⟩ := (weight_lt_of_mem_plan steady.linked planned member).1
    rcases has with rfl | isKey
    · exact value
    · exact key root isKey
  obtain ⟨f, made, isProperty, reproduced, held⟩ :=
    exists_reproduced_of_mem steady.linked steady.nonempty allocated member has
  have kept {id : NodeId} (isNew : ¬p.tree.Allocated id)
      (allocated : (entries.mapM property p.tree).2.Allocated id) :
      q.tree.Allocated id ∧ q.tree.node id = (entries.mapM property p.tree).2.node id :=
    ⟨Nat.lt_of_lt_of_le allocated filled.size, filled.built allocated isNew⟩
  have loose := building.loose made isProperty
  have linked := filled.steady.linked
  have inProperty : q.tree.parent? (f root) = some made := by
    rw [← linked.mem_children, (kept loose.new loose.allocated).2]
    exact building.grows.linked.mem_children.mpr held
  have inLiteral : q.tree.parent? made = some literal := by
    rw [← linked.mem_children, show q.tree.node literal = _ from filled.shape]
    exact isProperty
  exact ⟨f, reproduced.keep kept,
    linked.isWithin_trans (linked.isWithin_of_parent inProperty)
      (linked.isWithin_of_parent inLiteral)⟩

/-! ### Where names of the values are declared -/

section Declared

variable {o : Program} {d : Declaration} {x other statement : NodeId}

theorem isWithin_root_of_means (neat : o.Neat p) (steady : p.Steady)
    (attached : p.isAttached statement = true) (added : added? p object statement = some entry)
    (has : entry.Has root) (within : p.tree.isWithin x root = true)
    (means : p.lexicon.meaning? x = some d) (declares : p.tree.isWithin d.identifier other = true)
    (isDeclarator : (p.node other).isDeclarator = true)
    (inside : p.tree.isWithin other statement = true) :
    p.tree.isWithin other root = true := by
  obtain ⟨expression, target, base, label, computed, rfl, shape, expressionShape, targetShape,
    isKey, named, -, -, keyClause⟩ :=
      of_added? added
  have linked := steady.linked
  have rooted := steady.sound.rooted
  have expressionHeld : p.tree.parent? expression = some entry.statement := by
    rw [← linked.mem_children, show p.tree.node entry.statement = _ from shape]
    exact List.mem_singleton_self _
  have isTarget : target ∈ (p.tree.node expression).children ∧
      entry.value ∈ (p.tree.node expression).children := by
    rw [show p.tree.node expression = _ from expressionShape]
    exact ⟨List.mem_pair.mpr (.inl rfl), List.mem_pair.mpr (.inr rfl)⟩
  have isLabel : label ∈ (p.tree.node target).children := by
    rw [show p.tree.node target = _ from targetShape]
    exact List.mem_pair.mpr (.inr rfl)
  have targetHeld := linked.mem_children.mp isTarget.1
  have valueHeld := linked.mem_children.mp isTarget.2
  have labelHeld := linked.mem_children.mp isLabel
  have expressionAttached :=
    rooted.isAttached_below attached (linked.isWithin_of_parent expressionHeld)
  have targetAttached := rooted.isAttached_below expressionAttached
    (linked.isWithin_of_parent targetHeld)
  have notLeaf {id : NodeId} (isIdentifier : (p.node id).isIdentifier = true) :
      p.tree.isWithin other id = false := by
    rw [Bool.eq_false_iff]
    intro below
    rw [linked.eq_of_isWithin_identifier isIdentifier below] at isDeclarator
    cases isNode : p.node id <;> simp_all [Node.isIdentifier, Node.identifier?, Node.isDeclarator]
  have apart (inLabel : p.tree.isWithin x label = true)
      (inValue : p.tree.isWithin x entry.value = true) : False := by
    have same := linked.eq_of_isWithin_children targetHeld valueHeld
      (linked.isWithin_trans inLabel (linked.isWithin_of_parent labelHeld)) inValue
    have distinct := linked.nodup_children expression
    rw [show p.tree.node expression = _ from expressionShape] at distinct
    exact (List.nodup_cons.mp distinct).1 (List.mem_singleton.mpr same)
  have isRoot : root = entry.value ∨ root = label :=
    has.imp_right fun isComputed => (isKey root isComputed).1
  rcases isWithin_assignment linked shape expressionShape targetShape inside with
    isOuter | inBase | inLabel | inValue
  · simp only [List.mem_cons, List.not_mem_nil, or_false] at isOuter
    rcases isOuter with rfl | rfl | rfl <;> simp_all [Node.isDeclarator]
  · rw [notLeaf (Option.isSome_of_eq_some named)] at inBase
    cases inBase
  · cases computed with
    | false =>
      rw [notLeaf keyClause] at inLabel
      cases inLabel
    | true =>
      have below := neat.isWithin_operand steady targetAttached isLabel (by rw [targetShape]; rfl)
        (linked.not_binds_of_parent labelHeld fun part _ => by
          rw [show p.tree.node target = _ from targetShape]
          cases part <;> simp_all [Node.part]) means (linked.isWithin_trans declares inLabel)
      rcases isRoot with rfl | rfl
      · exact (apart below within).elim
      · exact inLabel
  · have below := neat.isWithin_operand steady expressionAttached isTarget.2
      (by rw [expressionShape]; rfl) (linked.not_binds_of_parent valueHeld fun part _ => by
        rw [show p.tree.node expression = _ from expressionShape]
        cases part <;> simp_all [Node.part]) means (linked.isWithin_trans declares inValue)
    rcases isRoot with rfl | rfl
    · exact inValue
    · exact (apart within below).elim

/-- A statement between the declaration of an object and an assignment that fills the object. It
fills nothing itself. -/
def SteppedOver (p : Program) (declarator : NodeId) (entries : List Entry) (entry : Entry)
    (statement : NodeId) : Prop :=
  ∃ declaration list, p.tree.parent? declarator = some declaration ∧
    p.tree.Ahead list declaration statement ∧
    p.tree.Ahead list statement entry.statement ∧ statement ∉ entries.map Entry.statement

/-- A node in one of the declarators that follow another one in its declaration. -/
def Beside (p : Program) (declarator id : NodeId) : Prop :=
  ∃ beside, p.tree.parent? beside = p.tree.parent? declarator ∧
    p.tree.precedes declarator beside = true ∧
    p.tree.isWithin id beside = true

theorem added?_of_mem_plan (planned : plan? p declarator = some (object, entries))
    (member : entry ∈ entries) :
    added? p object entry.statement = some entry := by
  obtain ⟨-, _, -, rfl, -⟩ := of_plan? planned
  obtain ⟨_, -, added⟩ := exists_of_mem_entries member
  obtain ⟨_, _, _, _, _, rfl, -⟩ := of_added? added
  exact added

theorem SteppedOver.silent (between : SteppedOver p declarator entries entry statement)
    (linked : p.tree.Linked) (planned : plan? p declarator = some (object, entries))
    (member : entry ∈ entries) :
    mentions p object.name statement = false := by
  obtain ⟨declaration, list, held, after, before, notEntry⟩ := between
  rcases added_or_silent linked planned member held after (.inr before) with
    ⟨found, isEntry, added⟩ | ⟨-, silent⟩
  · obtain ⟨_, _, _, _, _, rfl, -⟩ := of_added? added
    exact absurd (List.mem_map_of_mem isEntry) notEntry
  · exact silent

/-- The value and the key of an entry lie in its statement, and they do not mention the object. -/
theorem Entry.Has.isWithin (has : entry.Has root) (linked : p.tree.Linked)
    (added : added? p object statement = some entry) :
    p.tree.isWithin root statement = true ∧ mentions p object.name root = false := by
  obtain ⟨expression, target, base, label, computed, rfl, shape, expressionShape, targetShape,
    isKey, -, -, silent, keyClause⟩ := of_added? added
  have below {id child : NodeId} {node : Node NodeId} (shape : p.node id = node)
      (isChild : child ∈ node.children) :
      p.tree.isWithin child id = true :=
    linked.isWithin_of_parent (linked.mem_children.mp (by rwa [show p.tree.node id = _ from shape]))
  have inStatement := below shape (List.mem_singleton_self _)
  rcases has with rfl | isComputed
  · exact ⟨linked.isWithin_trans (below expressionShape (List.mem_pair.mpr (.inr rfl))) inStatement,
      silent⟩
  · obtain ⟨rfl, rfl⟩ := isKey root isComputed
    exact ⟨linked.isWithin_trans (below targetShape (List.mem_pair.mpr (.inr rfl)))
      (linked.isWithin_trans (below expressionShape (List.mem_pair.mpr (.inl rfl))) inStatement),
      keyClause⟩

theorem isWithin_statement_of_means (neat : o.Neat p) (steady : p.Steady)
    (attached : p.isAttached statement = true) {expression : NodeId}
    (shape : p.node statement = .expressionStatement expression)
    (means : p.lexicon.meaning? x = some d) (declares : p.tree.isWithin d.identifier other = true)
    (isDeclarator : (p.node other).isDeclarator = true)
    (inside : p.tree.isWithin other statement = true) :
    p.tree.isWithin x statement = true := by
  have linked := steady.linked
  have isChild : expression ∈ (p.tree.node statement).children := by
    rw [show p.tree.node statement = _ from shape]
    exact List.mem_singleton_self _
  have held := linked.mem_children.mp isChild
  have different : other ≠ statement := by
    rintro rfl
    rw [shape] at isDeclarator
    cases isDeclarator
  obtain ⟨child, member, below⟩ := linked.exists_child inside different
  rw [show p.tree.node statement = _ from shape] at member
  obtain rfl := List.mem_singleton.mp member
  refine linked.isWithin_trans ?_ (linked.isWithin_of_parent held)
  refine neat.isWithin_operand steady attached isChild (by rw [shape]; rfl) ?_ means
    (linked.isWithin_trans declares below)
  refine linked.not_binds_of_parent held fun part _ => ?_
  rw [show p.tree.node statement = _ from shape]
  cases part <;> simp [Node.part]

theorem eq_of_isWithin_declarator (linked : p.tree.Linked)
    (isEmpty : emptyObject? p declarator = some object)
    (isDeclarator : (p.node other).isDeclarator = true)
    (below : p.tree.isWithin other declarator = true) :
    other = declarator := by
  obtain ⟨target, shape, isObject, named, -⟩ := shape_of_emptyObject? isEmpty
  by_contra different
  obtain ⟨child, isChild, within⟩ := linked.exists_child below different
  rw [show p.tree.node declarator = _ from shape] at isChild
  rcases List.mem_pair.mp (show child ∈ [target, object.init] from isChild) with rfl | rfl
  · rw [linked.eq_of_isWithin_identifier (Option.isSome_of_eq_some named) within] at isDeclarator
    cases isNode : p.node child <;> simp_all [Node.identifier?, Node.isDeclarator]
  · rw [linked.eq_of_isWithin_leaf (by rw [show p.tree.node object.init = _ from isObject]; rfl)
      within, isObject] at isDeclarator
    cases isDeclarator

/-- Whatever means what the declarator of an object declares is spelled like the object. -/
theorem spelled_of_means (sound : p.Sound) (isEmpty : emptyObject? p declarator = some object)
    (means : p.lexicon.meaning? x = some d) (held : p.tree.parent? d.identifier = some declarator) :
    (p.node x).identifier? = some object.name := by
  obtain ⟨target, shape, isObject, named, -⟩ := shape_of_emptyObject? isEmpty
  have bound := Lexicon.meaning?_some means
  have isMeant : p.lexicon.meaning? d.identifier = some d := by
    rw [sound.regular.meaning?_of_declared (Lexicon.binder?_some bound).1, bound]
  have isChild := sound.linked.mem_children.mpr held
  rw [show p.tree.node declarator = _ from shape] at isChild
  rw [(sound.of_meaning? means).1, ← (sound.of_meaning? isMeant).1]
  rcases List.mem_pair.mp (show d.identifier ∈ [target, object.init] from isChild) with same | same
  · rw [same, named]
  · have isIdentifier := sound.isIdentifier_of_meaning? isMeant
    rw [same, isObject] at isIdentifier
    cases isIdentifier

theorem before_or_between (neat : o.Neat p) (steady : p.Steady)
    (attached : p.isAttached declarator = true)
    (planned : plan? p declarator = some (object, entries)) (member : entry ∈ entries)
    (has : entry.Has root) (within : p.tree.isWithin x root = true)
    (means : p.lexicon.meaning? x = some d) (held : p.tree.parent? d.identifier = some other)
    (isDeclarator : (p.node other).isDeclarator = true) (before : p.tree.precedes other x = true) :
    p.tree.precedes other declarator = true ∨ p.tree.isWithin other root = true ∨
      Beside p declarator other ∨
        ∃ between, SteppedOver p declarator entries entry between ∧
          p.tree.isWithin other between = true := by
  have linked := steady.linked
  have isTop := steady.isTop
  have sound := steady.sound
  have rooted := sound.rooted
  have added := added?_of_mem_plan planned member
  obtain ⟨rootWithin, silent⟩ := has.isWithin linked added
  have inStatement := linked.isWithin_trans within rootWithin
  obtain ⟨declaration, list, _, heldObject, above, aboveLast, ahead, -⟩ :=
    exists_list_of_mem_plan linked planned member
  have declarationAttached := rooted.isAttached_parent attached heldObject
  have listAttached := rooted.isAttached_parent declarationAttached above
  have statementAttached :=
    rooted.isAttached_below listAttached (linked.isWithin_of_parent aboveLast)
  have declares := linked.isWithin_of_parent held
  obtain ⟨xAttached, declaredAttached⟩ := isWithin_root_of_meaning? rooted means
  rw [← isAttached_eq linked isTop.top] at xAttached declaredAttached
  have otherAttached := rooted.isAttached_parent declaredAttached held
  have inRoot {id : NodeId} (attached : p.isAttached id = true) :
      p.tree.isWithin id p.root = true := by
    rwa [isAttached_eq linked isTop.top] at attached
  have notStatement : p.tree.isWithin entry.statement other = false := by
    rw [Bool.eq_false_iff]
    intro around
    have apart := (Tree.not_isWithin_of_precedes before).1
    rw [linked.isWithin_trans inStatement around] at apart
    cases apart
  have different : other ≠ declarator := by
    rintro rfl
    have loud := (mentions_eq_true_iff linked (linked.allocated_of_isWithin rootWithin
      (Tree.allocated_of_parent? aboveLast))).mpr ⟨x, within,
        spelled_of_means sound (of_plan? planned).1 means held⟩
    rw [silent] at loud
    cases loud
  -- A declarator around the object is one around all statements of the list.
  have notAround (around : p.tree.isWithin declarator other = true) :
      p.tree.isWithin entry.statement other = true := by
    have notDeclaration : declaration ≠ other := by
      rintro rfl
      have isOperand := neat.tidy.sorted.isOperand_child (neat.owns_of_isAttached otherAttached)
        (linked.mem_children.mpr heldObject) (Node.holdsOperands_of_isDeclarator isDeclarator)
      obtain ⟨_, shape, -⟩ := shape_of_emptyObject? (of_plan? planned).1
      rw [show p.tree.node declarator = _ from shape] at isOperand
      cases isOperand
    rw [linked.isWithin_parent heldObject different.symm,
      linked.isWithin_parent above notDeclaration] at around
    exact linked.isWithin_trans (linked.isWithin_of_parent aboveLast) around
  rcases linked.precedes_total isTop.allocated (inRoot otherAttached) (inRoot attached) with
    first | after | below | around
  · exact .inl first
  · have upTo : p.tree.precedes other entry.statement = true ∨
        p.tree.isWithin other entry.statement = true := by
      rcases linked.precedes_total isTop.allocated (inRoot otherAttached)
        (inRoot statementAttached) with first | behind | below | around
      · exact .inl first
      · have apart := (Tree.not_isWithin_of_precedes (linked.precedes_trans behind before)).1
        rw [inStatement] at apart
        cases apart
      · exact .inr below
      · rw [notStatement] at around
        cases around
    rcases linked.exists_between isTop.allocated (inRoot listAttached) (inRoot otherAttached)
      heldObject above aboveLast ahead.ne after upTo with ⟨beside, heldBeside, isAhead, inside⟩ |
        ⟨between, heldBetween, isAhead, inside, upTo⟩
    · refine .inr (.inr (.inl ⟨beside, heldBeside.trans heldObject.symm, ?_, inside⟩))
      exact (linked.precedes_iff_ahead heldObject heldBeside isAhead.ne Tree.isWithin_self
        Tree.isWithin_self).mpr isAhead
    · rcases added_or_silent linked planned member heldObject isAhead upTo with
        ⟨found, isEntry, filling⟩ | ⟨none, -⟩
      · obtain ⟨_, _, _, _, _, rfl, shape, -⟩ := of_added? filling
        have betweenAttached :=
          rooted.isAttached_below listAttached (linked.isWithin_of_parent heldBetween)
        have inBetween := isWithin_statement_of_means neat steady betweenAttached shape means
          declares isDeclarator inside
        obtain isSame := linked.eq_of_isWithin_children heldBetween aboveLast inBetween inStatement
        rw [isSame] at inside
        exact .inr (.inl
          (isWithin_root_of_means neat steady statementAttached added has within means declares
            isDeclarator inside))
      · refine
          .inr (.inr (.inr ⟨between, ⟨declaration, list, heldObject, isAhead, ?_,
            fun isEntry => ?_⟩, inside⟩))
        · refine upTo.resolve_left ?_
          rintro rfl
          rw [added] at none
          cases none
        · obtain ⟨found, isFound, rfl⟩ := List.mem_map.mp isEntry
          rw [added?_of_mem_plan planned isFound] at none
          cases none
  · exact absurd (eq_of_isWithin_declarator linked (of_plan? planned).1 isDeclarator below)
      different
  · rw [notAround around] at notStatement
    cases notStatement

end Declared

/-! ### What the run takes away -/

section Run

variable {o : Program} {w v found left last : Workspace} {c : Context} {id : NodeId}

theorem precedes_of_mem_plan (linked : p.tree.Linked)
    (planned : plan? p declarator = some (object, entries)) (member : entry ∈ entries) :
    p.tree.precedes declarator entry.statement = true := by
  obtain ⟨declaration, list, _, held, above, aboveStatement, ahead, -⟩ :=
    exists_list_of_mem_plan linked planned member
  exact (linked.precedes_iff_ahead above aboveStatement ahead.ne (linked.isWithin_of_parent held)
    Tree.isWithin_self).mpr ahead

theorem isWithin_init (linked : p.tree.Linked)
    (planned : plan? p declarator = some (object, entries)) :
    p.tree.isWithin object.init declarator = true := by
  obtain ⟨target, shape, -⟩ := shape_of_emptyObject? (of_plan? planned).1
  refine linked.isWithin_of_parent (linked.mem_children.mp ?_)
  rw [show p.tree.node declarator = _ from shape]
  exact List.mem_pair.mpr (.inr rfl)

theorem aligned_left (steady : w.program.Steady) (attached : w.program.isAttached declarator = true)
    (planned : plan? w.program declarator = some (object, entries))
    (stepped : step declarator w = .ok true v) :
    w.program.Aligned (fun id => w.program.tree.precedes declarator id = true ∨ id = object.init)
      v.program := by
  refine aligned_of_step (.start steady) attached stepped fun other others plannedToo => ?_
  rw [planned, Option.some.injEq, Prod.mk.injEq] at plannedToo
  obtain ⟨rfl, rfl⟩ := plannedToo
  exact ⟨fun entry member _ => .inl (precedes_of_mem_plan steady.linked planned member),
    fun _ => .inr rfl⟩

theorem attached_left (steady : w.program.Steady)
    (attached : w.program.isAttached declarator = true)
    (planned : plan? w.program declarator = some (object, entries))
    (stepped : step declarator w = .ok true v) (isAttached : w.program.isAttached id = true)
    (plain : (w.program.node id).isVariableDeclaration = false)
    (upTo : id = declarator ∨ w.program.tree.precedes id declarator = true) :
    v.program.isAttached id = true := by
  have linked := steady.linked
  refine (aligned_left steady attached planned stepped).toRemnant.stays isAttached plain
    fun outer isMay => ?_
  rw [Bool.eq_false_iff]
  intro within
  rcases isMay with after | rfl
  · have first : w.program.tree.precedes id outer = true := by
      rcases upTo with rfl | first
      · exact after
      · exact linked.precedes_trans first after
    rw [(Tree.not_isWithin_of_precedes first).2] at within
    cases within
  · have below := isWithin_init linked planned
    rcases upTo with rfl | first
    · obtain ⟨target, shape, isObject, -⟩ := shape_of_emptyObject? (of_plan? planned).1
      rw [← linked.isWithin_antisymm within below, shape] at isObject
      cases isObject
    · have apart := (Tree.not_isWithin_of_precedes first).2
      rw [linked.isWithin_trans within below] at apart
      cases apart

theorem aligned_last (steady : p.Steady) (sorted : p.tree.Sorted fun id => p.isAttached id = true)
    (visits : Visits (fun p id => isDeclarator (p.node id)) step ⟨p, c⟩ declarator
      found left last) :
    left.program.Aligned (fun id => left.program.tree.precedes declarator id = true)
      last.program := by
  have linked := steady.linked
  have rooted := steady.sound.rooted
  have attached : p.isAttached declarator = true := rooted.isAttached_of_mem_nodes visits.isNode.1
  obtain ⟨⟨atFound, -⟩, ⟨atLeft, -⟩, -⟩ := aligned_of_visits steady sorted visits
  obtain ⟨object, entries, literal, planned, filled⟩ := filled_of_step atFound.steady
    visits.attached visits.stepped
  have stays := aligned_left atFound.steady visits.attached planned visits.stepped
  obtain ⟨target, shape, -⟩ := shape_of_emptyObject? (of_plan? planned).1
  have attachedLeft := attached_left atFound.steady visits.attached planned visits.stepped
    visits.attached (by rw [shape]; rfl) (.inl rfl)
  have linkedLeft := atLeft.steady.linked
  refine visits.invariant_last
    (left.program.Aligned fun id => left.program.tree.precedes declarator id = true)
    (.start atLeft.steady) fun other w changed v aligned attachedNow inFront isOther stepped => ?_
  have otherBefore : p.isAttached other = true :=
    rooted.isAttached_of_mem_nodes (inFront.subset (by simp))
  have isOld := rooted.allocated_of_isAttached otherBefore
  have otherLeft := (aligned.parent (atLeft.toRemnant.allocated isOld) attachedNow).1
  have otherFound := (stays.parent (atFound.toRemnant.allocated isOld) otherLeft).1
  -- What is visited later stands behind the declarator, for there is no other declarator in it.
  have behind : left.program.tree.precedes declarator other = true := by
    rcases linked.precedes_or_isWithin rooted.isTop.allocated inFront with after | below
    · rwa [atLeft.precedes_eq attached attachedLeft otherBefore otherLeft]
    · rw [← atFound.isWithin_eq isOld otherFound] at below
      have isDeclaratorNow : (found.program.node other).isDeclarator = true := by
        rw [← Node.isDeclarator_tag, atFound.toRemnant.tag isOld, Node.isDeclarator_tag]
        cases shape : p.node other <;> simp_all [ObjectLiteral.isDeclarator, Node.isDeclarator]
      rw [eq_of_isWithin_declarator atFound.steady.linked (of_plan? planned).1 isDeclaratorNow
        below] at inFront
      exact absurd (inFront.nodup (linked.nodup_descendants rooted.isTop.allocated)) (by simp)
  refine aligned_of_step aligned attachedNow stepped
    fun object entries planned => ⟨fun entry member isOld => ?_, fun isOld => ?_⟩
  · have attachedRoot := attachedNow
    rw [isAttached_eq aligned.steady.linked aligned.steady.isTop.top] at attachedRoot
    have statementNow := (exists_apart_of_plan? aligned.steady attachedRoot planned).1.attached _
      (List.mem_map_of_mem member)
    rw [← isAttached_eq aligned.steady.linked aligned.steady.isTop.top] at statementNow
    have statementLeft := (aligned.parent isOld statementNow).1
    have inFront := precedes_of_mem_plan aligned.steady.linked planned member
    rw [aligned.precedes_eq otherLeft attachedNow statementLeft statementNow] at inFront
    exact linkedLeft.precedes_trans behind inFront
  · have within := isWithin_init aligned.steady.linked planned
    rw [aligned.isWithin_eq isOld (aligned.rooted.isAttached_below attachedNow within)] at within
    exact linkedLeft.precedes_of_isWithin behind within

theorem attached_last (linked : w.program.tree.Linked)
    (aligned : w.program.Aligned (fun id => w.program.tree.precedes declarator id = true) v.program)
    (plain : (w.program.node id).isVariableDeclaration = false)
    (upTo : w.program.tree.isWithin id declarator = true ∨
      w.program.tree.precedes id declarator = true)
    (isAttached : w.program.isAttached id = true) : v.program.isAttached id = true := by
  refine aligned.toRemnant.stays isAttached plain fun outer after => ?_
  rw [Bool.eq_false_iff]
  intro within
  have behind := linked.precedes_of_isWithin after within
  rcases upTo with below | first
  · rw [(Tree.not_isWithin_of_precedes behind).1] at below
    cases below
  · rw [linked.not_precedes_of_precedes behind] at first
    cases first

theorem copied_last (linked : p.tree.Linked) (rooted : w.program.Rooted)
    (aligned : w.program.Aligned (fun id => w.program.tree.precedes declarator id = true) v.program)
    (attached : w.program.isAttached declarator = true)
    (held : w.program.tree.parent? literal = some declarator) {f : NodeId → NodeId}
    (reproduced : p.tree.Reproduced w.program.tree root f)
    (inLiteral : w.program.tree.isWithin (f root) literal = true)
    (within : p.tree.isWithin id root = true) (plain : (p.node id).isVariableDeclaration = false) :
    w.program.tree.isWithin (f id) declarator = true ∧ w.program.isAttached (f id) = true ∧
      v.program.isAttached (f id) = true := by
  have linkedNow := rooted.linked
  have below :=
    linkedNow.isWithin_trans
      (linkedNow.isWithin_trans (reproduced.isWithin linked linkedNow within) inLiteral)
      (linkedNow.isWithin_of_parent held)
  have isAttached := rooted.isAttached_below attached below
  refine ⟨below, isAttached, attached_last linkedNow aligned ?_ (.inl below) isAttached⟩
  rw [Program.node, reproduced.node within, ← Node.isVariableDeclaration_tag, Node.tag_map,
    Node.isVariableDeclaration_tag]
  exact plain

end Run

end ObjectLiteral

theorem Program.Aligned.exists_declared {o : Program} {may : NodeId → Prop} {x other : NodeId}
    {b : BindingId} {value : Option NodeId} (aligned : o.Aligned may p) (spares : o.Spares o p)
    (belongs : o.bindingOf? x = some b) (declared : o.declaratorOf? b = some (other, value))
    (attachedNow : p.isAttached x = true) :
    ∃ d, p.lexicon.meaning? x = some d ∧ p.tree.parent? d.identifier = some other ∧
      (p.node other).isDeclarator = true ∧ o.isAttached x = true ∧ o.isAttached other = true ∧
        p.isAttached other = true := by
  have sound := aligned.origin.sound
  have linked := sound.linked
  obtain ⟨d, means, stands⟩ := sound.exists_of_bindingOf? belongs
  obtain ⟨-, shape⟩ := declaratorOf?_eq_some_iff.mp declared
  rw [show (o.binding b).identifier = d.identifier from stands.identifier] at shape
  have attached : o.isAttached x = true := by
    rw [isAttached_eq linked sound.isTop.top]
    exact (isWithin_root_of_meaning? sound.rooted means).1
  have meansNow := (spares x attached attachedNow).2.trans means
  have declaredNow : p.isAttached d.identifier = true := by
    rw [isAttached_eq aligned.steady.linked aligned.steady.isTop.top]
    exact (isWithin_root_of_meaning? aligned.rooted meansNow).2
  have held : o.tree.parent? d.identifier = some other := by
    rw [← linked.mem_children, show o.tree.node other = _ from shape]
    exact List.mem_cons_self ..
  obtain ⟨declaredBefore, same⟩ := aligned.parent (Tree.allocated_of_parent? held) declaredNow
  have heldNow := same.trans held
  refine ⟨d, meansNow, heldNow, ?_, attached, sound.rooted.isAttached_parent declaredBefore held,
    aligned.rooted.isAttached_parent declaredNow heldNow⟩
  rw [← Node.isDeclarator_tag, aligned.toRemnant.tag (linked.allocated_parent held),
    Node.isDeclarator_tag, shape]
  rfl

open ObjectLiteral in
/-- The values and computed keys that fill an object are moved over statements that do not mention
the object, whatever else these may mention. What a name in them means is declared in front of the
name if it was before the run, unless it is declared in such a statement or in a declarator beside
the one of the object. -/
theorem Program.Reached.moves_values (reached : p.Reached) (verified : p.verify = .ok ())
    (wellBound : p.tree.WellBound) (sorted : p.tree.Sorted fun id => p.isAttached id = true)
    {c : Context} {found left last : Workspace}
    (visits : Visits (fun p id => ObjectLiteral.isDeclarator (p.node id)) ObjectLiteral.step ⟨p, c⟩
      declarator found left last) :
    ∃ object entries literal properties,
      ObjectLiteral.plan? found.program declarator = some (object, entries) ∧
      left.program.tree.parent? literal = some declarator ∧
      left.program.node literal = .object properties ∧
      ∀ entry ∈ entries,
        (∀ between, SteppedOver found.program declarator entries entry between →
          mentions found.program object.name between = false) ∧
        ∀ root, entry.Has root → ∃ f, found.program.tree.Reproduced left.program.tree root f ∧
          left.program.tree.isWithin (f root) literal = true ∧
          ∀ x b other value, found.program.tree.isWithin x root = true → p.bindingOf? x = some b →
            p.declaratorOf? b = some (other, value) → p.tree.precedes other x = true →
              last.program.isAttached (f x) = true ∧
                (Beside found.program declarator other ∨
                  (∃ between, SteppedOver found.program declarator entries entry between ∧
                    found.program.tree.isWithin other between = true) ∨
                  ∃ now, (now = other ∨ found.program.tree.isWithin other root = true ∧
                    now = f other) ∧
                    last.program.isAttached now = true ∧
                    last.program.tree.precedes now (f x) = true) := by
  have sound := reached.sound verified
  have steady : p.Steady := ⟨sound, wellBound⟩
  obtain ⟨⟨atFound, -⟩, ⟨atLeft, -⟩, -⟩ := aligned_of_visits steady sorted visits
  have here : p.Orderly .names p p := .names (.start sound sorted) steady
  obtain ⟨leads, -⟩ := visits.along (Along.course p .names) here
    fun _ _ leads attached => orderly_step leads.stay attached
  have neat := leads.neat nofun
  have spares := leads.spares rfl
  obtain ⟨object, entries, literal, planned, filled⟩ := filled_of_step atFound.steady
    visits.attached visits.stepped
  have stays := aligned_left atFound.steady visits.attached planned visits.stepped
  have toLast := aligned_last steady sorted visits
  have linkedFound := atFound.steady.linked
  have linkedLeft := atLeft.steady.linked
  refine ⟨object, entries, literal, _, planned, filled.held, filled.shape, fun entry member =>
    ⟨fun between isBetween => isBetween.silent linkedFound planned member, fun root has => ?_⟩⟩
  obtain ⟨f, reproduced, inLiteral⟩ := filled.exists_reproduced atFound.steady planned member has
  refine ⟨f, reproduced, inLiteral, fun x b other value within belongs declared before => ?_⟩
  have inStatement :=
    linkedFound.isWithin_trans within
      (has.isWithin linkedFound (added?_of_mem_plan planned member)).1
  have attachedRoot := visits.attached
  rw [isAttached_eq linkedFound atFound.steady.isTop.top] at attachedRoot
  have statementFound := (exists_apart_of_plan? atFound.steady attachedRoot planned).1.attached _
    (List.mem_map_of_mem member)
  rw [← isAttached_eq linkedFound atFound.steady.isTop.top] at statementFound
  have xFound := atFound.rooted.isAttached_below statementFound inStatement
  obtain ⟨d, means, held, isDeclarator, xBefore, otherBefore, otherFound⟩ :=
    atFound.exists_declared spares belongs declared xFound
  rw [← atFound.precedes_eq otherBefore otherFound xBefore xFound] at before
  have plain {n : Node NodeId} (isDeclarator : n.isDeclarator = true) :
      n.isVariableDeclaration = false := by
    cases n <;> simp_all [Node.isDeclarator, Node.isVariableDeclaration]
  have declaratorLeft : left.program.isAttached declarator = true := by
    obtain ⟨_, shape, -⟩ := shape_of_emptyObject? (of_plan? planned).1
    exact attached_left atFound.steady visits.attached planned visits.stepped visits.attached
      (by rw [shape]; rfl) (.inl rfl)
  have copy {id : NodeId} (within : found.program.tree.isWithin id root = true)
      (plain : (found.program.node id).isVariableDeclaration = false) :=
    copied_last linkedFound atLeft.rooted toLast declaratorLeft filled.held reproduced
      inLiteral within plain
  obtain ⟨inObject, xLeft, xLast⟩ := copy within (by
    have isIdentifier := atFound.steady.sound.isIdentifier_of_meaning? means
    cases shape : found.program.node x <;> simp_all [Node.isIdentifier, Node.identifier?,
      Node.isVariableDeclaration])
  refine ⟨xLast, ?_⟩
  rcases before_or_between neat atFound.steady visits.attached planned member has within means held
    isDeclarator before with first | inside | beside | between
  · have otherLeft := attached_left atFound.steady visits.attached planned visits.stepped otherFound
      (plain isDeclarator) (.inr first)
    rw [← stays.precedes_eq otherFound otherLeft visits.attached declaratorLeft] at first
    have otherLast :=
      attached_last linkedLeft toLast (plain (stays.leads.isDeclarator isDeclarator))
        (.inr first) otherLeft
    refine .inr (.inr ⟨other, .inl rfl, otherLast, ?_⟩)
    rw [toLast.precedes_eq otherLeft otherLast xLeft xLast]
    exact linkedLeft.precedes_of_isWithin first inObject
  · obtain ⟨-, otherLeft, otherLast⟩ := copy inside (plain isDeclarator)
    refine .inr (.inr ⟨f other, .inr ⟨inside, rfl⟩, otherLast, ?_⟩)
    rw [toLast.precedes_eq otherLeft otherLast xLeft xLast, reproduced.precedes_eq linkedFound
      linkedLeft inside within, before]
  · exact .inl beside
  · exact .inr (.inl between)

/-! ### A value that is moved in front of what it reads -/

namespace ObjectLiteral

/-- The tree of `var o = {}; var x = true; o.a = x;`. -/
def later : Tree :=
  ⟨#[⟨.identifier "o", some ⟨2⟩⟩, ⟨.object [], some ⟨2⟩⟩,
    ⟨.variableDeclarator ⟨0⟩ (some ⟨1⟩), some ⟨3⟩⟩, ⟨.variableDeclaration .var [⟨2⟩], some ⟨14⟩⟩,
    ⟨.identifier "x", some ⟨6⟩⟩, ⟨.literal (.boolean true), some ⟨6⟩⟩,
    ⟨.variableDeclarator ⟨4⟩ (some ⟨5⟩), some ⟨7⟩⟩, ⟨.variableDeclaration .var [⟨6⟩], some ⟨14⟩⟩,
    ⟨.identifier "o", some ⟨10⟩⟩, ⟨.identifier "a", some ⟨10⟩⟩, ⟨.member ⟨8⟩ ⟨9⟩ false, some ⟨12⟩⟩,
    ⟨.identifier "x", some ⟨12⟩⟩, ⟨.assignment .assign ⟨10⟩ ⟨11⟩, some ⟨13⟩⟩,
    ⟨.expressionStatement ⟨12⟩, some ⟨14⟩⟩, ⟨.program [⟨3⟩, ⟨7⟩, ⟨13⟩], none⟩]⟩

theorem linked_later : later.Linked := Tree.linked_of_checks (by decide)

theorem exists_visits_later :
    ∃ scopes left last b x, Program.ofTree later ⟨14⟩ = .ok ⟨later, ⟨14⟩, scopes, false⟩ ∧
      Steady ⟨later, ⟨14⟩, scopes, false⟩ ∧
      Visits (fun p id => isDeclarator (p.node id)) step ⟨⟨later, ⟨14⟩, scopes, false⟩, default⟩ ⟨2⟩
        ⟨⟨later, ⟨14⟩, scopes, false⟩, default⟩ left last ∧
      plan? ⟨later, ⟨14⟩, scopes, false⟩ ⟨2⟩ = some (⟨"o", b, ⟨1⟩⟩, [⟨⟨13⟩, .named "a", ⟨11⟩⟩]) ∧
      bindingOf? ⟨later, ⟨14⟩, scopes, false⟩ ⟨11⟩ = some x ∧
      declaratorOf? ⟨later, ⟨14⟩, scopes, false⟩ x = some (⟨6⟩, some ⟨5⟩) ∧
      SteppedOver ⟨later, ⟨14⟩, scopes, false⟩ ⟨2⟩ [⟨⟨13⟩, .named "a", ⟨11⟩⟩]
        ⟨⟨13⟩, .named "a", ⟨11⟩⟩ ⟨7⟩ := by
  obtain ⟨scopes, made, steady, b, isEmpty, belongs⟩ := exists_emptyObject later ⟨14⟩ ⟨2⟩
    ⟨⟨14⟩, "o", .var, ⟨2⟩, ⟨0⟩⟩ linked_later ⟨by decide, by decide⟩
    (Tree.wellBound_of_bindsWell (by decide)) rfl (by decide) (by decide) rfl rfl rfl (by decide)
  set p : Program := ⟨later, ⟨14⟩, scopes, false⟩ with isProgram
  have sound := steady.sound
  have added : added? p ⟨"o", b, ⟨1⟩⟩ ⟨13⟩ = some ⟨⟨13⟩, .named "a", ⟨11⟩⟩ :=
    added?_eq_some rfl rfl rfl rfl rfl (belongs ⟨8⟩ (by decide)) rfl
  have planned : plan? p ⟨2⟩ = some (⟨"o", b, ⟨1⟩⟩, [⟨⟨13⟩, .named "a", ⟨11⟩⟩]) := by
    refine plan?_eq_some isEmpty rfl ?_
    -- The search steps over the declaration of `x`.
    have passed : ObjectLiteral.entries p ⟨"o", b, ⟨1⟩⟩ [⟨7⟩, ⟨13⟩] =
        ObjectLiteral.entries p ⟨"o", b, ⟨1⟩⟩ [⟨13⟩] := rfl
    rw [show p.tree.followingStatements ⟨3⟩ = [⟨7⟩, ⟨13⟩] from rfl, passed,
      ObjectLiteral.entries, added]
    rfl
  have means : (later.lexicon ⟨14⟩).meaning? ⟨11⟩ = some ⟨⟨14⟩, "x", .var, ⟨6⟩, ⟨4⟩⟩ := by decide
  obtain ⟨x, found, stands⟩ := sound.exists_stands (Lexicon.meaning?_some means)
  obtain ⟨left, last, visits⟩ := exists_visits steady rfl rfl planned
  refine ⟨scopes, left, last, b, x, made, steady, visits, planned, ?_, ?_, ⟨3⟩, ⟨14⟩, rfl, ?_,
    ?_, by decide⟩
  · rw [sound.bindingOf?_eq, show p.lexicon.meaning? ⟨11⟩ = _ from means]
    exact found
  · rw [Program.declaratorOf?_eq_some_iff,
      show (p.binding x).identifier = ⟨4⟩ from stands.identifier]
    exact ⟨stands.declaration, rfl⟩
  · exact ⟨0, 1, rfl, rfl, by decide⟩
  · exact ⟨1, 2, rfl, rfl, by decide⟩

end ObjectLiteral

open ObjectLiteral in
theorem Program.Reached.exists_moves_values : ∃ p left last, Program.ofTree later ⟨14⟩ = .ok p ∧
    Visits (fun p id => ObjectLiteral.isDeclarator (p.node id)) ObjectLiteral.step ⟨p, default⟩ ⟨2⟩
      ⟨p, default⟩ left last ∧
      ∃ object entries literal, ObjectLiteral.plan? p ⟨2⟩ = some (object, entries) ∧
        ∃ entry ∈ entries, SteppedOver p ⟨2⟩ entries entry ⟨7⟩ ∧
          mentions p object.name ⟨7⟩ = false ∧
          ∃ f, p.tree.Reproduced left.program.tree ⟨11⟩ f ∧
            left.program.tree.isWithin (f ⟨11⟩) literal = true ∧
            last.program.isAttached (f ⟨11⟩) = true := by
  obtain ⟨scopes, left, last, b, x, made, steady, visits, planned, belongs, declared,
    steppedOver⟩ := exists_visits_later
  have sorted := steady.sound.rooted.sorted_of_isSorted (show later.isSorted = true by decide)
  obtain ⟨object, entries, literal, properties, plannedToo, -, -, each⟩ := moves_values
    (.made linked_later ⟨by decide, by decide⟩ made) steady.sound.verify
    steady.wellBound sorted visits
  obtain ⟨rfl, rfl⟩ := Prod.mk.inj (Option.some.inj (planned.symm.trans plannedToo))
  obtain ⟨silent, moved⟩ := each _ (List.mem_singleton_self _)
  obtain ⟨f, reproduced, inLiteral, stays⟩ := moved ⟨11⟩ (.inl rfl)
  exact ⟨_, left, last, made, visits, _, _, literal, planned, _,
    List.mem_singleton_self _, steppedOver, silent _ steppedOver, f, reproduced, inLiteral,
    (stays ⟨11⟩ x ⟨6⟩ (some ⟨5⟩) Tree.isWithin_self belongs declared
      (show later.precedes ⟨6⟩ ⟨11⟩ = true by decide)).1⟩

open ObjectLiteral in
/-- A value is moved over the declaration of what it reads, which comes after it from then on. -/
theorem Rule.exists_moved_read :
    ∃ p left last object entries entry literal f x, Program.ofTree later ⟨14⟩ = .ok p ∧
      (∃ changed, Rule.run .objectReconstruction ⟨p, default⟩ = .ok changed last) ∧
      Visits (fun p id => ObjectLiteral.isDeclarator (p.node id)) ObjectLiteral.step
        ⟨p, default⟩ ⟨2⟩ ⟨p, default⟩ left last ∧
        ObjectLiteral.plan? p ⟨2⟩ = some (object, entries) ∧ entry ∈ entries ∧
          p.tree.isWithin ⟨11⟩ entry.value = true ∧
            p.bindingOf? ⟨11⟩ = some x ∧ p.declaratorOf? x = some (⟨6⟩, some ⟨5⟩) ∧
              SteppedOver p ⟨2⟩ entries entry ⟨7⟩ ∧ p.tree.isWithin ⟨6⟩ ⟨7⟩ = true ∧
                p.tree.precedes ⟨6⟩ ⟨11⟩ = true ∧
                  p.tree.Reproduced left.program.tree entry.value f ∧
                  left.program.tree.isWithin (f entry.value) literal = true ∧
                    last.program.isAttached ⟨6⟩ = true ∧ last.program.isAttached (f ⟨11⟩) = true ∧
                      last.program.tree.precedes ⟨6⟩ (f ⟨11⟩) = false := by
  obtain ⟨scopes, left, last, b, x, made, steady, visits, planned, belongs, declared,
    steppedOver⟩ := exists_visits_later
  have sorted := steady.sound.rooted.sorted_of_isSorted (show later.isSorted = true by decide)
  set p : Program := ⟨later, ⟨14⟩, scopes, false⟩ with isProgram
  have attached : p.isAttached ⟨2⟩ = true := rfl
  obtain ⟨object, entries, literal, plannedToo, filled⟩ := filled_of_step steady attached
    visits.stepped
  obtain ⟨rfl, rfl⟩ := Prod.mk.inj (Option.some.inj (planned.symm.trans plannedToo))
  obtain ⟨f, reproduced, inLiteral⟩ := filled.exists_reproduced steady planned
    (List.mem_singleton_self _) (.inl rfl)
  obtain ⟨-, ⟨atLeft, -⟩, atLast, -⟩ := aligned_of_visits steady sorted visits
  have toLast := aligned_last steady sorted visits
  have linkedLeft := atLeft.steady.linked
  have stays {q : Program} (aligned : p.Aligned (Takes p) q) : q.isAttached ⟨6⟩ = true := by
    refine aligned.toRemnant.stays rfl rfl fun outer takes => ?_
    rw [Bool.eq_false_iff]
    intro within
    have isAbove : outer ∈ [⟨14⟩, ⟨7⟩, ⟨6⟩] := Tree.mem_path.mpr within
    simp only [List.mem_cons, List.not_mem_nil, or_false] at isAbove
    rcases isAbove with rfl | rfl | rfl <;> obtain ⟨_, shape⟩ | ⟨shape, -⟩ := takes <;> cases shape
  have objectLeft := attached_left steady attached planned visits.stepped attached rfl (.inl rfl)
  obtain ⟨below, xLeft, xLast⟩ :=
    copied_last steady.linked atLeft.rooted toLast objectLeft filled.held reproduced inLiteral
      Tree.isWithin_self rfl
  have behind : left.program.tree.precedes ⟨2⟩ ⟨6⟩ = true := by
    rw [atLeft.precedes_eq attached objectLeft rfl (stays atLeft)]
    exact (show later.precedes ⟨2⟩ ⟨6⟩ = true by decide)
  have inFront : last.program.tree.precedes (f ⟨11⟩) ⟨6⟩ = true := by
    rw [toLast.precedes_eq xLeft xLast (stays atLeft) (stays atLast)]
    have isTop := atLeft.steady.isTop
    refine linkedLeft.isWithin_precedes isTop.allocated ?_ ?_ behind below
    · rwa [← isAttached_eq linkedLeft isTop.top]
    · rw [← isAttached_eq linkedLeft isTop.top]
      exact stays atLeft
  exact ⟨p, left, last, _, _, _, literal, f, x, made, visits.run, visits, planned,
    List.mem_singleton_self _, Tree.isWithin_self, belongs, declared, steppedOver,
    (show later.isWithin ⟨6⟩ ⟨7⟩ = true by decide), (show later.precedes ⟨6⟩ ⟨11⟩ = true by decide),
    reproduced, inLiteral, stays atLast, xLast,
    toLast.steady.linked.not_precedes_of_precedes inFront⟩

end Unravel
