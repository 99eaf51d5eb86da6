import Unravel.Proofs.Simplify.Clauses
import Unravel.Proofs.Simplify.Expanding
import Unravel.Proofs.Simplify.Rules
import Unravel.Simplify.Call
import Unravel.Simplify.Rule
import Unravel.Simplify.TableEntry
import Unravel.Simplify.Unused

/-!
Rules change programs orderly, whether it is the links, the places of nodes, jumps or the meanings
of names that they have to keep.
-/

namespace Unravel

open SimplifyM Program

variable {o p q : Program} {aim : Aim}

/-! ### Expressions -/

theorem Escapes.orderly (here : o.Orderly aim p p) : Along (o.Orderly aim) p Escapes.run any := by
  refine .nodesWhere fun ids _ => .anyChange (Along.course o aim) here
    fun id _ q leads => .program ?_
  have here := leads.stay
  split
  · exact .pure here trivial
  · rename_i value decoded planned
    have spot : q.Spot aim id := here.spot
      (by cases shape : q.node id <;> first | rfl | simp_all [Escapes.plan?])
      (by cases shape : q.node id <;> first | rfl | simp_all [Escapes.plan?])
    refine .place here spot ((workshop_parts o aim q.tree).literal _)
      fun literal r leads fits _ => ?_
    split
    · exact .thenReturn (Along.course o aim) (.recordReplace leads.stay fits)
    · exact .thenReturn (Along.course o aim) (.discardReplace leads.stay fits)

theorem Folding.orderly (here : o.Orderly aim p p) : Along (o.Orderly aim) p Folding.run any := by
  refine .visit (Along.course o aim) here fun id q leads _ isCandidate _ => .program ?_
  have spot : p.Spot aim id := here.spot
    (by cases shape : p.node id <;> first | rfl | simp_all [Folding.isCandidate])
    (by cases shape : p.node id <;> first | rfl | simp_all [Folding.isCandidate])
  split
  · exact .pure leads.stay trivial
  · rename_i value planned
    refine .place leads.stay (spot.orderly leads) ((workshop_parts o aim q.tree).encode value)
      fun folded r leads fits _ => .program ?_
    split
    · exact .pure leads.stay trivial
    · exact .thenReturn (Along.course o aim) (.recordReplace leads.stay fits)

theorem DottedCall.orderly (here : o.Orderly aim p p) :
    Along (o.Orderly aim) p DottedCall.run any := by
  refine .visit (Along.course o aim) here fun call q leads _ _ attached => .program ?_
  have here := leads.stay
  split
  · exact .pure here trivial
  · rename_i callee base name planned
    obtain ⟨key, arguments, callShape, memberShape, -⟩ := DottedCall.of_plan? planned
    have isCallee := here.held_child (here.held_of_isAttached attached) (c := callee) (by
      rw [callShape]
      exact List.mem_cons_self ..)
    have source := here.operand isCallee (c := base) (by
      rw [memberShape]
      exact List.mem_cons_self ..) (by rw [memberShape]; rfl)
    have spot : q.Spot aim callee := here.spot (by rw [memberShape]; rfl) (by rw [memberShape]; rfl)
    refine .place here spot
      (.bind (yields_copy here.rooted.linked lasting_isOperand source) fun copy =>
        (workshop_parts o aim q.tree).dotMember copy name) fun member r leads fits _ => ?_
    exact .thenReturn (Along.course o aim) (.recordReplace leads.stay fits)

theorem Proxy.yields_applied {state : List NodeId → Tree → Prop} (shop : Tree.Workshop state)
    (proxy : OperatorProxy) {first second : NodeId}
    (firstMade : Tree.Yields state [] Tree.piece (Tree.copy first))
    (secondMade : Tree.Yields state [] Tree.piece (Tree.copy second)) :
    Tree.Yields state [] Tree.piece (Proxy.applied proxy first second) := by
  refine .bind firstMade fun first => .bind (secondMade.frame (Tree.piece first)) fun second => ?_
  split
  · exact shop.alloc (.binary proxy.operator second first) rfl
  · exact shop.reorder (shop.alloc (.binary proxy.operator first second) rfl)
      (.swap first second [])

theorem Proxy.orderly (here : o.Orderly aim p p) : Along (o.Orderly aim) p Proxy.run any := by
  refine .program (.bindAny (Along.course o aim) (fun _ => ⟨here, trivial⟩) fun _ q start => ?_)
  refine .bindAny (Along.course o aim) (.visit (Along.course o aim) start.stay
      fun call r leads _ isCall attached => .program (.context fun c => ?_))
    fun expanded r further => .bindAny (Along.course o aim)
      (.anyChange (Along.course o aim) further.stay
        fun d member s last => .program (.context fun c => ?_))
        fun removed _ leads => .pure leads.stay trivial
  · have spot : q.Spot aim call := start.stay.spot
      (by cases shape : q.node call <;> first | rfl | simp_all [Proxy.isCall])
      (by cases shape : q.node call <;> first | rfl | simp_all [Proxy.isCall])
    split
    · exact .pure leads.stay trivial
    · rename_i proxy first second found
      obtain ⟨callee, shape⟩ := Proxy.of_call? found
      have source {argument : NodeId} (member : argument ∈ [first, second]) :
          o.Source aim IsOperand r.tree argument :=
        leads.stay.operand (leads.stay.held_of_isAttached attached) (by
          rw [shape]
          exact List.mem_cons_of_mem _ member) (by rw [shape]; rfl)
      have copied {argument : NodeId} (member : argument ∈ [first, second]) :=
        yields_copy leads.rooted.linked lasting_isOperand (source member)
      refine .place leads.stay (spot.orderly leads)
        (Proxy.yields_applied (workshop_parts o aim r.tree) proxy (copied (by simp))
          (copied (by simp))) fun operation s leads fits _ => ?_
      exact .thenReturn (Along.course o aim) (.recordReplace leads.stay fits)
  · split
    · obtain ⟨id, -, found⟩ := List.mem_filterMap.mp member
      have follows := (start.toFollows.trans further.toFollows).trans last.toFollows
      have unmissed : aim = .names → s.tree.isWithin d.node s.root = true →
          o.Unmissed s d.node := by
        obtain ⟨rfl, ⟨expression, shape⟩ | ⟨key, value, computed, shape⟩⟩ :=
          Proxy.of_definition? found
        · obtain ⟨_, shape⟩ := follows.expressionStatement shape
          exact last.stay.unmissed_of_expressionStatement shape
        · obtain ⟨_, _, _, shape⟩ := follows.property shape
          exact last.stay.unmissed_of_operand (by rw [shape]; rfl) (by rw [shape]; rfl)
      refine .snippet fun text => .bind (Along.course o aim) (.remove last.stay unmissed)
        fun _ _ leads _ => ?_
      exact .thenReturn (Along.course o aim) (.record _ _ _ leads.stay)
    · exact .pure last.stay trivial

/-! ### Names -/

theorem Program.Orderly.spot_of_reference (here : o.Orderly aim p p) {id reference : NodeId}
    {binding : BindingId} (belongs : p.bindingOf? id = some binding)
    (member : reference ∈ (p.binding binding).references) :
    p.Spot aim reference := by
  intro isNames
  have sound := (here.steady isNames).1.sound
  obtain ⟨d, means⟩ := sound.exists_meaning_of_reference belongs member
  exact ⟨sound.free_of_reference belongs member,
    Node.isOperand_of_isIdentifier (sound.isIdentifier_of_meaning? means)⟩

theorem ConstantUse.orderly_step {declarator : NodeId} (here : o.Orderly aim q q)
    (attached : q.isAttached declarator = true) :
    Along (o.Orderly aim) q (ConstantUse.step declarator) any := by
  refine .program (.context fun c => ?_)
  split
  · exact .pure here trivial
  · rename_i plan planned
    obtain ⟨binding, shape, belongs, unwritten, isUses, -⟩ := ConstantUse.of_plan? planned
    have source : o.Source aim IsOperand q.tree plan.init :=
      here.operand (here.held_of_isAttached attached) (by
      rw [shape]
      simp [Node.children]) (by rw [shape]; rfl)
    have spot {use : NodeId} (member : use ∈ plan.uses) : q.Spot aim use :=
      here.spot_of_reference belongs (isUses ▸ member)
    refine .snippet fun value => .snippet fun name => ?_
    refine .bind (Along.course o aim) (.forIn_rest (Along.course o aim)
      (fun rest r => ∀ use ∈ plan.uses, use ∈ rest ∨ r.tree.IsTop use) here
        (fun use member => .inl member) fun use rest r member leads gone => ?_)
        fun _ r leads gone => ?_
    · refine .place leads.stay ((spot member).orderly leads)
        (yields_copy leads.rooted.linked lasting_isOperand (source.follows leads.toFollows))
          fun copy s further fits isNew => ?_
      refine .bind (Along.course o aim) (.discardReplace further.stay fits)
        fun _ t last ⟨isTop, others⟩ => ?_
      refine .pure last.stay ⟨rfl, fun other isUse => ?_⟩
      rcases gone other isUse with toCome | wasTop
      · rcases List.mem_cons.mp toCome with rfl | later
        · exact .inr isTop
        · exact .inl later
      · obtain ⟨stillTop, different⟩ := isNew other wasTop
        exact .inr (others other stillTop different)
    · refine .bind (Along.course o aim) (.remove leads.stay (leads.stay.unmissed_of_declarator ?_
        fun isNames id d isOld isAttached means same => ?_)) fun _ _ leads _ => ?_
      · exact leads.toFollows.isDeclarator (by rw [shape]; rfl)
      · -- Whatever meant the variable was one of its uses, and these have left.
        have sound := (here.steady isNames).1.sound
        have afterSound := (leads.steady isNames).1.sound
        obtain ⟨_, unchanged⟩ := leads.spares isNames id isOld isAttached
        rw [means] at unchanged
        have declared := (Lexicon.binder?_some (Lexicon.meaning?_some unchanged.symm)).1
        have isTarget := sound.identifier_of_declaration shape belongs declared same
        obtain ⟨_, found, -, cases_⟩ := sound.exists_of_means unchanged.symm
        rw [isTarget, belongs, Option.some.injEq] at found
        subst found
        rw [unwritten, ← isUses] at cases_
        rcases cases_ with itself | isUse | none
        · exact itself
        · have isTop := (gone id isUse).resolve_left List.not_mem_nil
          have isIdentifier := afterSound.isIdentifier_of_meaning? means
          rw [isAttached_eq afterSound.linked afterSound.isTop.top, Tree.isWithin_of_root isTop.top]
            at isAttached
          obtain ⟨body, isProgram⟩ := afterSound.isProgram
          rw [isAttached, isProgram] at isIdentifier
          cases isIdentifier
        · cases none
      · exact .thenReturn (Along.course o aim) (.record _ _ _ leads.stay)

theorem ConstantUse.orderly (here : o.Orderly aim p p) :
    Along (o.Orderly aim) p ConstantUse.run any :=
  .visit (Along.course o aim) here
    fun _ _ leads _ _ attached => ConstantUse.orderly_step leads.stay attached

theorem Alias.orderly_collapseAt {sites : List NodeId} (here : o.Orderly aim p p)
    (spots : ∀ site ∈ sites, p.Spot aim site) :
    Along (o.Orderly aim) p (Alias.collapseAt sites) any := by
  refine .program (.anyChange (Along.course o aim) here fun site member q leads => ?_)
  refine .ifAttached leads.stay fun _ => .program ?_
  split
  · exact .pure leads.stay trivial
  · rename_i name target
    refine .place leads.stay ((spots site member).orderly leads)
      ((workshop_parts o aim q.tree).identifier name) fun identifier r leads fits _ => ?_
    exact .bind (Along.course o aim) (.replace leads.stay fits) fun placed _ leads _ =>
      .thenReturn (Along.course o aim) (.record _ _ _ leads.stay)

theorem Alias.orderly_initializers (here : o.Orderly aim p p) :
    Along (o.Orderly aim) p Alias.runInitializers any :=
  .program (Alias.orderly_collapseAt here fun init member isNames => by
    obtain ⟨id, -, named⟩ := List.mem_filterMap.mp member
    obtain ⟨isIdentifier, free⟩ := Alias.free_of_namedInit? (here.steady isNames).1 named
    exact ⟨free, Node.isOperand_of_isIdentifier isIdentifier⟩)

theorem Alias.orderly_uses (here : o.Orderly aim p p) : Along (o.Orderly aim) p Alias.runUses any :=
  .nodesWhere fun sites passed => Alias.orderly_collapseAt here fun site member isNames => by
    obtain ⟨isIdentifier, free⟩ := Alias.free_of_isUseSite (here.steady isNames).1
      (passed site member).2
    exact ⟨free, Node.isOperand_of_isIdentifier isIdentifier⟩

theorem Program.Orderly.source_of_initialized (here : o.Orderly aim p p)
    {id declarator init : NodeId} {binding : BindingId} (belongs : p.bindingOf? id = some binding)
    (initialized : p.initialized? binding = some (declarator, init)) :
    o.Source aim IsOperand p.tree init := by
  obtain ⟨rfl, shape⟩ := declaratorOf?_eq_some_iff.mp (declaratorOf?_of_initialized? initialized)
  have held : o.Held aim p.tree (p.binding binding).declaration := by
    refine ⟨fun isOther => ?_,
      Tree.allocated_of_node_ne (by rw [show p.tree.node _ = _ from shape]; nofun)⟩
    obtain ⟨known, keeps⟩ := (here.neat isOther).keeps
    exact (here.neat isOther).owns_of_isWithin (keeps.isWithin_declaration belongs)
  exact here.operand held (by rw [shape]; simp [Node.children]) (by rw [shape]; rfl)

theorem ArrayRead.orderly (here : o.Orderly aim p p) :
    Along (o.Orderly aim) p ArrayRead.run any := by
  refine .visit (Along.course o aim) here fun declarator q start _ _ _ => .program ?_
  have here := start.stay
  split
  · split
    · exact .pure here trivial
    · rename_i binding belongs
      refine .context fun c => .anyChange (Along.course o aim) here fun pair planned r leads => ?_
      obtain ⟨_, init, elements, base, key, computed, initialized, isArray, isElement, -, shape⟩ :=
        ArrayRead.of_mem_plan planned
      have spot : q.Spot aim pair.1 := here.spot (by rw [shape]; rfl) (by rw [shape]; rfl)
      have source :=
        here.operand (here.source_of_initialized belongs initialized).toHeld (c := pair.2)
          (by rw [isArray]; exact isElement) (by rw [isArray]; rfl)
      refine .ifAttached leads.stay fun _ => ?_
      refine .place leads.stay (spot.orderly leads)
        (yields_copy leads.rooted.linked lasting_isOperand (source.follows leads.toFollows))
        fun copy s leads fits _ => ?_
      exact .thenReturn (Along.course o aim) (.recordReplace leads.stay fits)
  · exact .pure here trivial

theorem Marshal.yields_encoded {state : List NodeId → Tree → Prop} (shop : Tree.Workshop state)
    (mode : MarshalMode) (value : String) :
    Tree.Yields state [] Tree.piece (Marshal.encoded mode value) := by
  cases mode with
  | literal => exact shop.literal _
  | identifier => exact shop.identifier value

theorem Marshal.orderly_unwrapGroup (mode : MarshalMode) (group : Marshal.Group) (value : String)
    (here : o.Orderly aim p p) (notNames : aim ≠ .names) :
    Along (o.Orderly aim) p (Marshal.unwrapGroup mode group value) any := by
  have course := Along.course o aim
  refine .bind course
    (.forIn course (fun _ => True) here trivial fun declarator _ q leads _ => .program ?_)
    fun _ q leads _ => .program (.bind course (.forIn course (fun _ => True) leads.stay trivial
      fun use _ r leads _ => ?_) fun _ _ leads _ => (Along.log _ leads.stay).toAny)
  · split
    · exact .yields course (.remove leads.stay fun isNames => absurd isNames notNames)
        fun _ _ _ _ => trivial
    · exact .pure leads.stay ⟨rfl, trivial⟩
  · have spot : r.Spot aim use := fun isNames => absurd isNames notNames
    refine .place leads.stay spot
      (Marshal.yields_encoded (workshop_parts o aim r.tree) mode value)
      fun encoded s leads fits _ => ?_
    exact .yields course (.discardReplace leads.stay fits) fun _ _ _ _ => trivial

theorem Marshal.orderly (function : String) (mode : MarshalMode) (here : o.Orderly aim p p)
    (notNames : aim ≠ .names) :
    Along (o.Orderly aim) p (Marshal.run function mode) any := by
  refine .context fun c => .program (.anyChange (Along.course o aim) here fun group _ q leads => ?_)
  split
  · exact .pure leads.stay trivial
  · exact .thenReturn (Along.course o aim)
      (Marshal.orderly_unwrapGroup mode group _ leads.stay notNames)

theorem Decoder.orderly_removeStep (a : Decoder.Alias) {declared init : NodeId}
    {binding : BindingId} (shape : p.node a.declarator = .variableDeclarator declared (some init))
    (belongs : p.bindingOf? declared = some binding) (leads : o.Orderly aim p q)
    (before : aim = .names → p.Sound) :
    Along (o.Orderly aim) q (Decoder.removeStep a declared) any := by
  refine .program ?_
  dsimp only
  split
  · rename_i spent
    refine .bind (Along.course o aim) (.remove leads.stay (leads.stay.unmissed_of_declarator ?_
      fun isNames id d isOld isAttached means same => ?_)) fun _ _ leads _ =>
        .thenReturn (Along.course o aim) (.record _ _ _ leads.stay)
    · exact leads.toFollows.isDeclarator (by rw [shape]; rfl)
    · obtain ⟨_, unchanged⟩ := leads.spares isNames id isOld isAttached
      rw [means] at unchanged
      have declared := (Lexicon.binder?_some (Lexicon.meaning?_some unchanged.symm)).1
      have isDeclared := (before isNames).identifier_of_declaration shape belongs declared same
      obtain ⟨other, belongs, unused⟩ := (Option.any_eq_true ..).mp spent
      simp only [Binding.isReferenced, Bool.not_not, Binding.isConstant, Bool.and_eq_true,
        List.isEmpty_iff] at unused
      exact (leads.steady isNames).1.sound.eq_of_means means (isDeclared ▸ belongs)
        unused.1 unused.2
  · exact .pure leads.stay trivial

theorem Decoder.orderly_aliasStep (a : Decoder.Alias) (here : o.Orderly aim p p) :
    Along (o.Orderly aim) p (Decoder.aliasStep a) any := by
  refine .program ?_
  split
  · rename_i declared init shape
    split
    · exact .pure here trivial
    · rename_i binding belongs
      refine .bindAny (Along.course o aim) (.anyChange (Along.course o aim) here
          fun reference member q leads => .program ?_)
        fun redirected q leads => .bindAny (Along.course o aim)
          (Decoder.orderly_removeStep a shape belongs leads
            fun isNames => (here.steady isNames).1.sound)
            fun _ _ leads => .pure leads.stay trivial
      split
      · refine .place leads.stay ((here.spot_of_reference belongs member).orderly leads)
          ((workshop_parts o aim q.tree).identifier a.target) fun identifier r leads fits _ => ?_
        exact .thenReturn (Along.course o aim) (.discardReplace leads.stay fits)
      · exact .pure leads.stay trivial
  · exact .pure here trivial

theorem Decoder.orderly_calls (names : List String) (primitive : Primitive)
    (here : o.Orderly aim p p) :
    Along (o.Orderly aim) p (visit (Decoder.callsOneOf names) (Decoder.callStep primitive))
      any := by
  have course := Along.course o aim
  refine .visit course here fun call q leads _ calls _ => .program ?_
  split
  · exact .pure leads.stay trivial
  · rename_i value result
    have spot : p.Spot aim call := here.spot
      (by cases shape : p.node call <;> first | rfl | simp_all [Decoder.callsOneOf])
      (by cases shape : p.node call <;> first | rfl | simp_all [Decoder.callsOneOf])
    refine .place leads.stay (spot.orderly leads) ((workshop_parts o aim q.tree).encode value)
      fun encoded r leads fits _ => ?_
    exact .thenReturn course (.recordReplace leads.stay fits)

theorem Decoder.orderly (name : String) (primitive : Primitive) (here : o.Orderly aim p p) :
    Along (o.Orderly aim) p (Decoder.run name primitive) any := by
  have course := Along.course o aim
  refine .program (.bind course (.forIn course (fun _ => True) here trivial
      fun a _ q leads _ => .yields course (.record _ _ _ leads.stay) fun _ _ _ _ => trivial)
    fun _ q start _ => .bindAny course (Decoder.orderly_calls _ primitive start.stay)
      fun resolved r leads => .bindAny course (.anyChange course leads.stay
          fun a _ s leads => .ifAttached leads.stay fun _ => Decoder.orderly_aliasStep a leads.stay)
        fun _ _ leads => .pure leads.stay trivial)

/-! ### Objects -/

theorem ObjectLiteral.yields_property {state : List NodeId → Tree → Prop}
    (shop : Tree.Workshop state) (entry : ObjectLiteral.Entry)
    (value : Tree.Yields state [] Tree.piece (Tree.copy entry.value))
    (key : ∀ key, entry.key = .computed key → Tree.Yields state [] Tree.piece (Tree.copy key)) :
    Tree.Yields state [] Tree.piece (ObjectLiteral.property entry) := by
  refine .bind value fun value => ?_
  cases shape : entry.key with
  | named name => exact shop.namedProperty name value
  | quoted name => exact shop.quotedProperty name value
  | computed label =>
    exact .bind ((key label shape).frame (Tree.piece value))
      fun label => shop.alloc (.property label value true) rfl

theorem ObjectLiteral.orderly_step {declarator : NodeId} (here : o.Orderly aim q q)
    (attached : q.isAttached declarator = true) :
    Along (o.Orderly aim) q (ObjectLiteral.step declarator) any := by
  have course := Along.course o aim
  refine .program ?_
  split
  · exact .pure here trivial
  · rename_i object entries planned
    have spot : q.Spot aim object.init := by
      have shape := ObjectLiteral.shape_of_plan? planned
      exact here.spot (by rw [shape]; rfl) (by rw [shape]; rfl)
    have shop := workshop_parts o aim q.tree
    have yields : Tree.Yields (o.Parts aim IsOperand q.tree) [] (fun made => made)
        (entries.mapM ObjectLiteral.property) := by
      refine shop.mapM entries fun entry member => ?_
      obtain ⟨declaration, list, statements, expression, target, base, label, computed, held,
        above, listed, isStatement, statementShape, expressionShape, targetShape, keyed⟩ :=
          ObjectLiteral.of_mem_plan planned member
      have attachedList :=
        here.rooted.isAttached_parent (here.rooted.isAttached_parent attached held) above
      have isChild : entry.statement ∈ (q.node list).children := by
        cases shape : q.node list <;> simp_all [Node.statements?, Node.children]
      have heldStatement := here.held_child (here.held_of_isAttached attachedList) isChild
      have heldExpression := here.held_child heldStatement (c := expression) (by
        rw [statementShape]
        exact List.mem_singleton_self _)
      have heldTarget := here.held_child heldExpression (c := target) (by
        rw [expressionShape]
        exact List.mem_cons_self ..)
      have copied {root : NodeId} (source : o.Source aim IsOperand q.tree root) :=
        yields_copy here.rooted.linked lasting_isOperand source
      refine ObjectLiteral.yields_property shop entry (copied (here.operand heldExpression ?_ ?_))
        fun key isKey =>
          copied (here.operand heldTarget ?_ ?_)
      · rw [expressionShape]
        exact List.mem_cons_of_mem _ (List.mem_singleton_self _)
      · rw [expressionShape]
        rfl
      · rw [targetShape, keyed key isKey]
        exact List.mem_cons_of_mem _ (List.mem_singleton_self _)
      · rw [targetShape]
        rfl
    refine .bind course (.build here yields) fun properties r leads made => ?_
    obtain ⟨grown, rfl, parts⟩ := made
    -- The properties hang nowhere until all statements are gone.
    refine .bind course (.forIn course
      (fun r => ∀ property ∈ properties, r.tree.IsTop property ∧ property ≠ r.root) leads.stay
        (fun property member => ?_) fun entry member s further kept => ?_)
        fun _ s further kept => ?_
    · have loose := parts.assembly.loose property member
      refine ⟨⟨loose.allocated, loose.detached⟩, ?_⟩
      rintro rfl
      exact loose.new here.rooted.isTop.allocated
    · have unmissed : aim = .names → s.tree.isWithin entry.statement s.root = true →
          o.Unmissed s entry.statement := by
        obtain ⟨_, _, _, _, _, _, _, _, -, -, -, -, shape, -⟩ :=
          ObjectLiteral.of_mem_plan planned member
        obtain ⟨_, shape⟩ := (leads.toFollows.trans further.toFollows).expressionStatement shape
        exact further.stay.unmissed_of_expressionStatement shape
      refine .bind course (.remove further.stay unmissed) fun _ t last still => ?_
      refine .pure last.stay ⟨rfl, fun property member => ?_⟩
      rw [last.root]
      exact ⟨still property (kept property member).1, (kept property member).2⟩
    · refine .bind course
        (.adopt further.stay rfl kept parts.assembly.distinct fun isOther property member =>
          ⟨parts.isNew isOther member, ?_⟩) fun literal t last ⟨allocated, operand⟩ => ?_
      · rw [Program.node,
          Node.isOperand_congr (further.tag (parts.assembly.loose property member).allocated)]
        exact parts.good isOther property member
      · have fits := last.stay.fits (spot.orderly ((leads.trans further).trans last)) allocated
          (fun isOther => (operand isOther).1) fun isOther => (operand isOther).2
        exact .bind course (.discardReplace last.stay fits) fun _ _ leads _ =>
          .thenReturn course (.record _ _ _ leads.stay)

theorem ObjectLiteral.orderly (here : o.Orderly aim p p) :
    Along (o.Orderly aim) p ObjectLiteral.run any :=
  .visit (Along.course o aim) here
    fun _ _ leads _ _ attached => ObjectLiteral.orderly_step leads.stay attached

/-! ### Tables and calls -/

theorem TableEntry.source_of_found? (here : o.Orderly aim p p) {c : Context}
    {member place value : NodeId} (found : TableEntry.found? p c member place = some value) :
    o.Source aim IsOperand p.tree value := by
  simp only [TableEntry.found?, bind, Option.bind_eq_some_iff] at found
  obtain ⟨name, -, table, isTable, entry⟩ := found
  unfold TableEntry.table? at isTable
  split at isTable
  · rename_i base _ _ _
    simp only [bind, Option.bind_eq_some_iff] at isTable
    obtain ⟨binding, belongs, ⟨declarator, init⟩, initialized, isTable⟩ := isTable
    split at isTable
    · cases isTable
      have held :=
        (here.source_of_initialized (Option.filter_eq_some_iff.mp belongs).1 initialized).toHeld
      unfold Tree.entryOf? at entry
      split at entry
      · rename_i properties tableShape
        split at entry
        · cases entry
        · split at entry
          · rename_i property isProperty
            split at entry
            · rename_i propertyShape
              cases entry
              have member := List.mem_of_find?_eq_some isProperty
              have heldProperty := here.held_child held (c := property) (by
                rw [show p.node _ = _ from tableShape]
                simpa [Node.children] using member)
              exact here.operand heldProperty (by
                rw [show p.node property = _ from propertyShape]
                simp [Node.children]) (by
                rw [show p.node property = _ from propertyShape]
                rfl)
            · cases entry
          · cases entry
      · cases entry
    · cases isTable
  · cases isTable

theorem TableEntry.orderly_reads (here : o.Orderly aim p p) :
    Along (o.Orderly aim) p TableEntry.runReads any := by
  have course := Along.course o aim
  refine .visit course here fun member q leads _ isMember _ => .program (.context fun c => ?_)
  have spot : p.Spot aim member := here.spot
    (by cases shape : p.node member <;> first | rfl | simp_all [TableEntry.isNamedMember])
    (by cases shape : p.node member <;> first | rfl | simp_all [TableEntry.isNamedMember])
  dsimp only
  split
  · exact .pure leads.stay trivial
  · rename_i value found
    have isFound : TableEntry.found? q c member member = some value := by
      split at found
      · cases found
      · exact (Option.filter_eq_some_iff.mp found).1
    refine .place leads.stay (spot.orderly leads) (yields_copy leads.rooted.linked lasting_isOperand
      (TableEntry.source_of_found? leads.stay isFound)) fun copy r leads fits _ => ?_
    exact .thenReturn course (.recordReplace leads.stay fits)

theorem TableEntry.orderly_calls (here : o.Orderly aim p p) :
    Along (o.Orderly aim) p TableEntry.runCalls any := by
  refine .visit (Along.course o aim) here
    fun call q leads _ _ attached => .program (.context fun c => ?_)
  split
  · exact .pure leads.stay trivial
  · rename_i callee function expression found
    have isFound : ∃ callee, TableEntry.found? q c callee call = some function := by
      unfold TableEntry.method? at found
      split at found
      · simp only [bind, Option.bind_eq_some_iff] at found
        obtain ⟨function, isFound, f, -, found⟩ := found
        split at found
        · simp only [pure, Option.bind_eq_some_iff, Option.some.injEq] at found
          obtain ⟨_, -, same⟩ := found
          cases same
          exact ⟨_, isFound⟩
        · cases found
      · cases found
    obtain ⟨_, isFound⟩ := isFound
    exact .snippet
      fun label => .expandCall leads.stay (TableEntry.source_of_found? leads.stay isFound).toHeld
        attached

theorem Call.orderly_expandNamed {function : NodeId} (here : o.Orderly aim p p)
    (held : o.Held aim p.tree function) :
    Along (o.Orderly aim) p (Call.expandNamed function) any := by
  have course := Along.course o aim
  refine .program (.context fun c => ?_)
  split
  · exact .pure here trivial
  · refine .bind course (.record _ _ _ here) fun _ q leads same => ?_
    subst same
    refine .anyChange course here fun call _ r leads => ?_
    exact .ifAttached leads.stay
      fun attached => .expandCall leads.stay (held.follows leads.toFollows) attached

theorem Call.orderly_named (here : o.Orderly aim p p) : Along (o.Orderly aim) p Call.runNamed any :=
  .visit (Along.course o aim) here fun _ _ leads _ _ attached =>
    Call.orderly_expandNamed leads.stay (leads.stay.held_of_isAttached attached)

theorem Call.mem_innermostFirst {calls : List NodeId} {call : NodeId} :
    call ∈ Call.innermostFirst p calls ↔ call ∈ calls := by
  simp [Call.innermostFirst]

theorem Call.orderly_immediate (here : o.Orderly aim p p) :
    Along (o.Orderly aim) p Call.runImmediate any := by
  refine .program (.anyChange (Along.course o aim) here fun pair member q leads => ?_)
  refine .ifAttached leads.stay fun attached => .program ?_
  split
  · exact .pure leads.stay trivial
  · obtain ⟨call, isCall, paired⟩ := List.mem_filterMap.mp member
    obtain ⟨function, immediate, rfl⟩ := Option.map_eq_some_iff.mp paired
    have isNode := (List.mem_filter.mp (Call.mem_innermostFirst.mp isCall)).1
    have held := here.held_of_isAttached (here.rooted.isAttached_of_mem_nodes isNode)
    have isChild : function ∈ (p.node call).children := by
      unfold Call.immediate? at immediate
      split at immediate
      · rename_i shape
        rw [Option.ite_none_right_eq_some, Option.some.injEq] at immediate
        rw [shape, immediate.2]
        exact List.mem_cons_self ..
      · cases immediate
    exact .expandCall leads.stay ((here.held_child held isChild).follows leads.toFollows) attached

/-! ### Declarations without use -/

theorem Unused.unmissed (here : o.Orderly aim p p) {id name : NodeId} {c : Context}
    (found : (Unused.declaredName? p id).filter (Unused.isUnused p c) = some name) :
    aim = .names → p.tree.isWithin id p.root = true → o.Unmissed p id := by
  intro isNames attached
  obtain ⟨named, unused⟩ := Option.filter_eq_some_iff.mp found
  have steady := (here.steady isNames).1
  have sound := steady.sound
  obtain ⟨binding, belongs, unused⟩ := (Option.any_eq_true ..).mp unused
  simp only [Bool.and_eq_true, decide_eq_true_eq, List.isEmpty_iff] at unused
  obtain ⟨⟨⟨-, unread⟩, unwritten⟩, -⟩ := unused
  unfold Unused.declaredName? at named
  split at named
  · rename_i f shape
    rw [Option.ite_none_right_eq_some] at named
    refine steady.unmissed_of_function attached shape fun other d _ _ means isName => ?_
    rw [named.2, Option.some.injEq] at isName
    exact sound.eq_of_means means (isName ▸ belongs) unread unwritten
  · rename_i target init shape
    rw [Option.ite_none_right_eq_some, Option.some.injEq] at named
    obtain ⟨-, rfl⟩ := named
    refine here.unmissed_of_declarator (by rw [shape]; rfl) (fun _ other d _ _ means same => ?_)
      isNames attached
    have declared := (Lexicon.binder?_some (Lexicon.meaning?_some means)).1
    have isTarget := sound.identifier_of_declaration shape belongs declared same
    exact sound.eq_of_means means (isTarget ▸ belongs) unread unwritten
  · cases named

theorem Unused.orderly_removeStep (id : NodeId) (here : o.Orderly aim p p) :
    Along (o.Orderly aim) p (Unused.removeStep id) any := by
  have course := Along.course o aim
  refine .program (.context fun c => ?_)
  split
  · exact .pure here trivial
  · rename_i name found
    refine .snippet fun text => .bind course (.remove here (Unused.unmissed here found))
      fun _ _ leads _ => ?_
    exact .thenReturn course (.record _ _ _ leads.stay)

theorem Unused.orderly_sweep (here : o.Orderly aim p p) :
    Along (o.Orderly aim) p Unused.sweep any := by
  have course := Along.course o aim
  refine .visit course here fun id q leads _ _ attached => .program (.context fun c => ?_)
  have removes {r : Program} (here : o.Orderly aim r r) (expanded : Bool) :
      Along (o.Orderly aim) r (do
      let removed ← Unused.removeStep id
      return expanded || removed) any :=
    .bindAny course (Unused.orderly_removeStep id here) fun _ _ leads => .pure leads.stay trivial
  split
  · exact .bindAny course
      (Call.orderly_expandNamed leads.stay (leads.stay.held_of_isAttached attached))
      fun expanded _ leads => removes leads.stay expanded
  · exact .bindAny course (.pure leads.stay trivial)
      fun expanded _ leads => removes leads.stay expanded

theorem Unused.orderly_sweepWithin (limit : Nat) (here : o.Orderly aim p p) :
    Along (o.Orderly aim) p (Unused.sweepWithin limit) any := by
  have course := Along.course o aim
  induction limit generalizing p with
  | zero => exact .pure here trivial
  | succ limit induction =>
    refine .bindAny course (Unused.orderly_sweep here) fun changed q leads => ?_
    split
    · exact .thenReturn course (.discard course (induction leads.stay))
    · exact .pure leads.stay trivial

namespace Rule

/-- The rules that take no declaration away that something still means. -/
def keepsNames : Rule → Bool
  | switchUnflattening | marshalUnwrap .. | branchPruning | classReconstruction => false
  | _ => true

/-- Every rule keeps links, places and jumps, and most rules the meanings of names. -/
theorem orderly (rule : Rule) (here : o.Orderly aim p p)
    (allowed : aim = .names → rule.keepsNames = true) :
    Along (o.Orderly aim) p rule.run any := by
  have notNames (kept : rule.keepsNames = false) : aim ≠ .names := fun isNames => by
    rw [allowed isNames] at kept
    cases kept
  cases rule with
  | switchUnflattening => exact FlatLoop.orderly here (notNames rfl)
  | computedCall => exact DottedCall.orderly here
  | dispatcherResolution name primitive => exact Decoder.orderly name primitive here
  | marshalUnwrap function mode => exact Marshal.orderly function mode here (notNames rfl)
  | unicodeDecode => exact Escapes.orderly here
  | branchPruning => exact Branch.orderly here (notNames rfl)
  | initializerChain => exact Alias.orderly_initializers here
  | aliasCollapse => exact Alias.orderly_uses here
  | functionInlining => exact Call.orderly_named here
  | iifeInlining => exact Call.orderly_immediate here
  | objectMethodInlining => exact TableEntry.orderly_calls here
  | memberPropertyInlining => exact TableEntry.orderly_reads here
  | binaryProxy => exact Proxy.orderly here
  | constInlining => exact ConstantUse.orderly here
  | arrayIndexInlining => exact ArrayRead.orderly here
  | constantFolding => exact Folding.orderly here
  | unusedDeclaration => exact .program (Unused.orderly_sweepWithin _ here)
  | objectReconstruction => exact ObjectLiteral.orderly here
  | classReconstruction => exact ClassForm.orderly here (notNames rfl)

theorem follows_leaves (rule : Rule) (c : Context) (rooted : p.Rooted) :
    p.Follows (rule.leaves c p) := by
  have result := rule.orderly (Orderly.links (o := p) rooted) nofun c
  unfold leaves
  cases ran : rule.run ⟨p, c⟩ with
  | ok changed w =>
    rw [ran] at result
    exact result.1.toFollows
  | error e w =>
    rw [ran] at result
    exact result

end Rule

end Unravel
