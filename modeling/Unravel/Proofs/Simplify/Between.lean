import Unravel.Proofs.Simplify.Filled
import Unravel.Proofs.Simplify.Postponed

/-!
What stands between the declaration of an empty object and the last statement that fills it.
-/

namespace Unravel

open SimplifyM Program

namespace Tree

variable {t : Tree} {a b list statement : NodeId} {statements front rest : List NodeId}

theorem pair_sublist_of_append (distinct : (front ++ rest).Nodup) (member : a ∈ rest)
    (inFront : [a, b].Sublist (front ++ rest)) : [a, b].Sublist rest := by
  obtain ⟨first, second, split, isFirst, isSecond⟩ := List.sublist_append_iff.mp inFront
  cases first with
  | nil => exact split ▸ isSecond
  | cons head tail =>
    obtain ⟨rfl, -⟩ := List.cons.inj split
    exact absurd member
      (List.disjoint_of_nodup_append distinct (isFirst.subset (List.mem_cons_self ..)))

theorem exists_children_eq (follows : b ∈ t.followingStatements a) :
    ∃ list front, t.parent? a = some list ∧
      (t.node list).children = front ++ a :: t.followingStatements a := by
  cases listed : t.statementList? a with
  | none =>
    rw [followingStatements, listed] at follows
    cases follows
  | some list =>
    have found := listed
    simp only [statementList?, bind, Option.bind_eq_some_iff] at found
    obtain ⟨parent, held, statements, isList, found⟩ := found
    split at found
    · rename_i member
      cases found
      obtain ⟨before, behind, rfl, notBefore⟩ := List.eq_append_cons_of_mem member
      have isFollowing : t.followingStatements a = behind := by
        have kept : ∀ other ∈ before, decide (other ≠ a) = true := fun other isBefore =>
          decide_eq_true fun same => notBefore (same ▸ isBefore)
        rw [followingStatements, listed, Option.bind_some, isList]
        dsimp only
        rw [List.dropWhile_append_of_pos kept, List.dropWhile_cons_of_neg (by simp), List.drop_one,
          List.tail_cons]
      have inner : ∃ front, (t.node list).children = front ++ (before ++ a :: behind) := by
        cases shape : t.node list <;> simp_all [Node.statements?, Node.children]
      obtain ⟨front, isFront⟩ := inner
      exact ⟨list, front ++ before, held, by rw [isFront, isFollowing, List.append_assoc]⟩
    · cases found

end Tree

variable {p : Program} {c : Context} {declarator x : NodeId}

namespace ObjectLiteral

variable {object : EmptyObject} {entries : List Entry} {entry : Entry} {statement : NodeId}
  {statements : List NodeId}

/-- Whether a node is the object in the assignment that an entry comes from. -/
def Fills (p : Program) (entry : Entry) (x : NodeId) : Prop :=
  ∃ expression target label computed, p.node entry.statement = .expressionStatement expression ∧
    p.node expression = .assignment .assign target entry.value ∧
    p.node target = .member x label computed

theorem mentions_eq_true_iff (linked : p.tree.Linked) (allocated : p.tree.Allocated statement)
    {name : String} :
    mentions p name statement = true ↔
      ∃ x, p.tree.isWithin x statement = true ∧ (p.node x).identifier? = some name := by
  simp only [mentions, Bool.not_eq_true', List.isEmpty_eq_false_iff_exists_mem,
    Tree.identifiersNamed, List.mem_filter, linked.mem_descendants_iff allocated,
    Node.isIdentifierNamed, decide_eq_true_eq]
  rfl

theorem isWithin_assignment (linked : p.tree.Linked) {expression target base label value : NodeId}
    {computed : Bool} (shape : p.node statement = .expressionStatement expression)
    (expressionShape : p.node expression = .assignment .assign target value)
    (targetShape : p.node target = .member base label computed)
    (within : p.tree.isWithin x statement = true) :
    x ∈ [statement, expression, target] ∨ p.tree.isWithin x base = true ∨
      p.tree.isWithin x label = true ∨
        p.tree.isWithin x value = true := by
  have below {outer : NodeId} (within : p.tree.isWithin x outer = true) :
      x = outer ∨ ∃ child ∈ (p.node outer).children, p.tree.isWithin x child = true :=
    or_iff_not_imp_left.mpr (linked.exists_child within)
  rcases below within with rfl | ⟨child, isChild, within⟩
  · exact .inl (by simp)
  rw [shape, Node.children, List.mem_singleton] at isChild
  subst isChild
  rcases below within with rfl | ⟨child, isChild, within⟩
  · exact .inl (by simp)
  rw [expressionShape] at isChild
  rcases List.mem_pair.mp isChild with isTarget | rfl
  · subst isTarget
    rcases below within with rfl | ⟨child, isChild, within⟩
    · exact .inl (by simp)
    rw [targetShape] at isChild
    rcases List.mem_pair.mp isChild with rfl | rfl
    · exact .inr (.inl within)
    · exact .inr (.inr (.inl within))
  · exact .inr (.inr (.inr within))

theorem fills_of_added? (sound : p.Sound) (added : added? p object statement = some entry)
    (named : (p.node x).identifier? = some object.name) {b : BindingId}
    (belongs : p.bindingOf? x = some b) (within : p.tree.isWithin x statement = true) :
    Fills p entry x := by
  obtain ⟨expression, target, base, label, computed, rfl, shape, expressionShape, targetShape, -,
    isObject, -, silent, keySilent⟩ := of_added? added
  have linked := sound.linked
  have loud {outer : NodeId} (within : p.tree.isWithin x outer = true)
      (held : p.tree.Allocated outer) :
      mentions p object.name outer = true := (mentions_eq_true_iff linked held).mpr ⟨x,
        within, named⟩
  have isAllocated {id child : NodeId} (isChild : child ∈ (p.tree.node id).children) :
      p.tree.Allocated child :=
    Tree.allocated_of_parent? (linked.mem_children.mp isChild)
  rcases isWithin_assignment linked shape expressionShape targetShape within with
    isOuter | inBase | inLabel | inValue
  · simp only [List.mem_cons, List.not_mem_nil, or_false] at isOuter
    rcases isOuter with rfl | rfl | rfl <;> simp_all [Node.identifier?]
  · rw [linked.eq_of_isWithin_leaf
      (Tree.children_of_isIdentifier (Option.isSome_of_eq_some isObject)) inBase]
    exact ⟨expression, target, label, computed, shape, expressionShape, targetShape⟩
  · cases computed with
    | true =>
      have held : p.tree.Allocated label := isAllocated (by
        rw [show p.tree.node target = _ from targetShape]
        exact List.mem_pair.mpr (.inr rfl))
      rw [loud inLabel held] at keySilent
      cases keySilent
    | false =>
      have isLabel := linked.eq_of_isWithin_leaf (Tree.children_of_isIdentifier keySilent) inLabel
      have isPart : x ∈ (p.node target).part .label := by
        rw [targetShape, isLabel]
        exact List.mem_singleton_self _
      rw [sound.bindingOf?_of_label isPart] at belongs
      cases belongs
  · have held : p.tree.Allocated entry.value := isAllocated (by
      rw [show p.tree.node expression = _ from expressionShape]
      exact List.mem_pair.mpr (.inr rfl))
    rw [loud inValue held] at silent
    cases silent

theorem gathered_or_silent (distinct : statements.Nodup)
    (member : entry ∈ ObjectLiteral.entries p object statements)
    (inFront : statement = entry.statement ∨ [statement, entry.statement].Sublist statements) :
    (∃ other ∈ ObjectLiteral.entries p object statements, added? p object statement = some other) ∨
      added? p object statement = none ∧ mentions p object.name statement = false := by
  induction statements with
  | nil => cases member
  | cons head rest induction =>
    rw [List.nodup_cons] at distinct
    have isEntry := member
    rw [ObjectLiteral.entries] at member
    cases added : added? p object head with
    | none =>
      rw [added] at member
      dsimp only at member
      split at member
      · cases member
      · rename_i silent
        rw [ObjectLiteral.entries, added]
        dsimp only
        rw [if_neg silent]
        by_cases isHead : statement = head
        · subst isHead
          exact .inr ⟨added, Bool.eq_false_iff.mpr silent⟩
        · refine induction distinct.2 member (inFront.imp_right fun inFront => ?_)
          cases inFront with
          | cons _ further => exact further
          | cons_cons => exact absurd rfl isHead
    | some first =>
      rw [added] at member
      rw [ObjectLiteral.entries, added]
      by_cases isHead : statement = head
      · subst isHead
        exact .inl ⟨first, List.mem_cons_self .., added⟩
      · rcases List.mem_cons.mp member with rfl | member
        · obtain ⟨_, _, _, _, _, same, -⟩ := of_added? added
          rw [same] at inFront
          rcases inFront with isSame | inFront
          · exact absurd isSame isHead
          · cases inFront with
            | cons _ further => exact absurd (further.subset (by simp)) distinct.1
            | cons_cons => exact absurd rfl isHead
        · refine (induction distinct.2 member (inFront.imp_right fun inFront => ?_)).imp_left
            (Exists.imp fun _ found => found.imp_left (List.mem_cons_of_mem _))
          cases inFront with
          | cons _ further => exact further
          | cons_cons => exact absurd rfl isHead

theorem exists_list_of_mem_plan (linked : p.tree.Linked)
    (planned : plan? p declarator = some (object, entries)) (member : entry ∈ entries) :
    ∃ declaration list front, p.tree.parent? declarator = some declaration ∧
      p.tree.parent? declaration = some list ∧ p.tree.parent? entry.statement = some list ∧
      p.tree.Ahead list declaration entry.statement ∧
      (p.tree.node list).children =
        front ++ declaration :: p.tree.followingStatements declaration := by
  obtain ⟨-, declaration, held, rfl, -⟩ := of_plan? planned
  obtain ⟨_, follows, added⟩ := exists_of_mem_entries member
  obtain ⟨_, _, _, _, _, rfl, -⟩ := of_added? added
  obtain ⟨list, front, above, children⟩ := Tree.exists_children_eq follows
  have distinct := linked.nodup_children list
  rw [children, List.nodup_append, List.nodup_cons] at distinct
  have different : declaration ≠ entry.statement := by
    rintro same
    rw [← same] at follows
    exact distinct.2.1.1 follows
  refine ⟨declaration, list, front, held, above, ?_, (linked.ahead_iff different).mpr ?_, children⟩
  · rw [← linked.mem_children, children]
    simp [follows]
  · rw [children]
    exact (List.cons_sublist_cons.mpr (List.singleton_sublist.mpr follows)).trans
      (List.sublist_append_right ..)

theorem added_or_silent (linked : p.tree.Linked)
    (planned : plan? p declarator = some (object, entries)) (member : entry ∈ entries)
    {declaration list : NodeId} (held : p.tree.parent? declarator = some declaration)
    (after : p.tree.Ahead list declaration statement)
    (before : statement = entry.statement ∨ p.tree.Ahead list statement entry.statement) :
    (∃ other ∈ entries, added? p object statement = some other) ∨
      added? p object statement = none ∧ mentions p object.name statement = false := by
  obtain ⟨_, outer, front, heldToo, above, -, -, children⟩ := exists_list_of_mem_plan linked
    planned member
  rw [held, Option.some.injEq] at heldToo
  subst heldToo
  have isList : outer = list := Option.some.inj (above.symm.trans (after.parent? linked))
  rw [isList] at children
  obtain ⟨-, _, heldToo, rfl, -⟩ := of_plan? planned
  rw [held, Option.some.injEq] at heldToo
  subst heldToo
  have distinct := linked.nodup_children list
  rw [children] at distinct
  -- What a child after the declaration is in front of stands behind the declaration.
  have later {first second : NodeId}
      (member : first ∈ declaration :: p.tree.followingStatements declaration)
      (ahead : p.tree.Ahead list first second) :
      [first, second].Sublist (declaration :: p.tree.followingStatements declaration) := by
    rw [linked.ahead_iff ahead.ne, children] at ahead
    exact Tree.pair_sublist_of_append distinct member ahead
  have behind : statement ∈ p.tree.followingStatements declaration :=
    (List.mem_cons.mp ((later (List.mem_cons_self ..) after).subset (by simp))).resolve_left
      after.ne.symm
  refine gathered_or_silent (nodup_followingStatements linked declaration) member
    (before.imp_right fun ahead => ?_)
  have inFront := later (List.mem_cons_of_mem _ behind) ahead
  cases inFront with
  | cons _ further => exact further
  | cons_cons => exact absurd rfl after.ne

theorem fills_or_beside (steady : p.Steady) (attached : p.isAttached declarator = true)
    (planned : plan? p declarator = some (object, entries)) (member : entry ∈ entries)
    (belongs : p.bindingOf? x = some object.binding) (after : p.tree.precedes declarator x = true)
    (before : p.tree.precedes x entry.statement = true ∨ p.tree.isWithin x entry.statement = true) :
    (∃ other ∈ entries, Fills p other x) ∨
    ∃ beside, p.tree.parent? beside = p.tree.parent? declarator ∧
      p.tree.precedes declarator beside = true ∧ p.tree.isWithin x beside = true := by
  have linked := steady.linked
  have isTop := steady.isTop
  have sound := steady.sound
  obtain ⟨target, -, -, named, belongsTarget, -⟩ := shape_of_emptyObject? (of_plan? planned).1
  obtain ⟨d, means, -⟩ := sound.exists_of_bindingOf? belongs
  have meansToo := (sound.meaning?_eq (belongsTarget.trans belongs.symm)).trans means
  have spelled : (p.node x).identifier? = some object.name := by
    rw [(sound.of_meaning? means).1, ← (sound.of_meaning? meansToo).1, named]
  obtain ⟨declaration, list, _, held, above, aboveLast, ahead, -⟩ := exists_list_of_mem_plan linked
    planned member
  have inList := sound.rooted.isAttached_parent (sound.rooted.isAttached_parent attached held) above
  rw [isAttached_eq linked isTop.top] at inList
  rcases linked.exists_between isTop.allocated inList
    (isWithin_root_of_meaning? sound.rooted means).1 held above aboveLast ahead.ne after before with
      ⟨beside, heldBeside, ahead, within⟩ | ⟨other, heldOther, ahead, within, before⟩
  · refine .inr ⟨beside, heldBeside.trans held.symm, ?_, within⟩
    exact (linked.precedes_iff_ahead held heldBeside ahead.ne Tree.isWithin_self
      Tree.isWithin_self).mpr ahead
  · rcases added_or_silent linked planned member held ahead before with
      ⟨found, isEntry, added⟩ | ⟨-, silent⟩
    · exact .inl ⟨found, isEntry, fills_of_added? sound added spelled belongs within⟩
    · have loud := (mentions_eq_true_iff linked (Tree.allocated_of_parent? heldOther)).mpr ⟨x,
        within, spelled⟩
      rw [silent] at loud
      cases loud

end ObjectLiteral

namespace ObjectLiteral

variable {may : NodeId → Prop} {object : EmptyObject} {entries : List Entry} {entry : Entry}
  {target : NodeId} {init : Option NodeId}

theorem declares_before {o : Program} (aligned : o.Aligned may p)
    (attached : o.isAttached declarator = true) (attachedNow : p.isAttached declarator = true)
    (shape : p.node declarator = .variableDeclarator target init) :
    ∃ before, o.node declarator = .variableDeclarator target before := by
  have tag := aligned.leads.tag (aligned.origin.sound.rooted.allocated_of_isAttached attached)
  rw [show p.tree.node declarator = _ from shape] at tag
  cases before : o.node declarator with
  | variableDeclarator name value =>
    have isTarget : name ∈ (o.node declarator).part .target := by
      rw [before]
      exact List.mem_singleton_self _
    have kept := aligned.names (by simp) attached attachedNow isTarget
    rw [shape] at kept
    exact ⟨value, by rw [List.mem_singleton.mp kept]⟩
  | _ =>
    rw [show o.tree.node declarator = _ from before] at tag
    cases tag

theorem attached_of_mem_plan {o : Program} (aligned : o.Aligned may p) (shortens : Shortens o p)
    (attached : o.isAttached declarator = true) (attachedNow : p.isAttached declarator = true)
    (planned : plan? p declarator = some (object, entries)) (member : entry ∈ entries) :
    o.isAttached entry.statement = true := by
  have rooted := aligned.origin.sound.rooted
  have rootedNow := aligned.rooted
  obtain ⟨declaration, list, statements, _, _, _, _, _, held, above, isList, inside, -⟩ :=
    of_mem_plan planned member
  have declarationNow := rootedNow.isAttached_parent attachedNow held
  have same := (aligned.parent (rooted.allocated_of_isAttached attached) attachedNow).2
  have declarationBefore := rooted.isAttached_parent attached (same.symm.trans held)
  have sameAbove :=
    (aligned.parent (rooted.allocated_of_isAttached declarationBefore) declarationNow).2
  have listBefore := rooted.isAttached_parent declarationBefore (sameAbove.symm.trans above)
  obtain ⟨before, isListBefore, fewer⟩ := shortens (rooted.allocated_of_isAttached listBefore)
    isList
  have heldBefore := rooted.linked.mem_children.mp
    (Node.mem_children_of_statements? isListBefore (fewer.subset inside))
  exact rooted.isAttached_below listBefore (rooted.linked.isWithin_of_parent heldBefore)

end ObjectLiteral

/-- Whatever objects have been filled before, the assignments that fill the next one are statements
of the program with which the run has started. All that means the object after its declarator and no
later than the last of them is a left side of one of them, or it stands in a declarator beside the
one of the object or in a statement that is gone. -/
theorem Program.Reached.hides_no_read (reached : p.Reached) (verified : p.verify = .ok ())
    (wellBound : p.tree.WellBound) (sorted : p.tree.Sorted fun id => p.isAttached id = true)
    {found left last : Workspace}
    (visits : Visits (fun p id => ObjectLiteral.isDeclarator (p.node id)) ObjectLiteral.step ⟨p, c⟩
      declarator found left last) :
    ∃ object entries target init,
      ObjectLiteral.plan? found.program declarator = some (object, entries) ∧
      p.node declarator = .variableDeclarator target init ∧
      (∀ entry ∈ entries, p.isAttached entry.statement = true) ∧
      ∀ entry ∈ entries, ∀ x, p.bindingOf? x = p.bindingOf? target →
        p.tree.precedes declarator x = true →
        p.tree.precedes x entry.statement = true ∨ p.tree.isWithin x entry.statement = true →
          (∃ other ∈ entries, ObjectLiteral.Fills found.program other x) ∨
          (∃ beside, p.tree.parent? beside = p.tree.parent? declarator ∧
            p.tree.precedes declarator beside = true ∧
            p.tree.isWithin x beside = true) ∨
          ∃ outer expression, p.node outer = .expressionStatement expression ∧
            p.tree.isWithin x outer = true ∧
            found.program.isAttached outer = false := by
  have sound := reached.sound verified
  have rooted := sound.rooted
  have linked := rooted.linked
  have steady : p.Steady := ⟨sound, wellBound⟩
  have attached : p.isAttached declarator = true := rooted.isAttached_of_mem_nodes visits.isNode.1
  obtain ⟨⟨aligned, shortens⟩, -⟩ := ObjectLiteral.aligned_of_visits steady sorted visits
  have here : p.Orderly .names p p := .names (.start sound sorted) steady
  obtain ⟨leads, -⟩ := visits.along (Along.course p .names) here
    fun _ _ leads attached => ObjectLiteral.orderly_step leads.stay attached
  have spares := leads.spares rfl
  have soundNow := aligned.steady.sound
  have attachedNow := visits.attached
  obtain ⟨object, entries, _, planned, -⟩ := ObjectLiteral.filled_of_step aligned.steady attachedNow
    visits.stepped
  obtain ⟨target, shape, isEmpty, -, belongs, -⟩ := ObjectLiteral.shape_of_emptyObject?
    (ObjectLiteral.of_plan? planned).1
  obtain ⟨init, before⟩ := ObjectLiteral.declares_before aligned attached attachedNow shape
  have isBefore {entry : ObjectLiteral.Entry} (member : entry ∈ entries) :=
    ObjectLiteral.attached_of_mem_plan aligned shortens attached attachedNow planned member
  refine ⟨object, entries, target, init, planned, before, fun entry => isBefore,
    fun entry member x same after upTo => ?_⟩
  have targetHeld : p.tree.parent? target = some declarator := by
    rw [← linked.mem_children, show p.tree.node declarator = _ from before]
    exact List.mem_cons_self ..
  have targetBefore := rooted.isAttached_below attached (linked.isWithin_of_parent targetHeld)
  obtain ⟨d, meansNow, -⟩ := soundNow.exists_of_bindingOf? belongs
  have targetNow : found.program.isAttached target = true := by
    rw [isAttached_eq soundNow.linked soundNow.isTop.top]
    exact (isWithin_root_of_meaning? soundNow.rooted meansNow).1
  have means : p.lexicon.meaning? x = some d :=
    (sound.meaning?_eq same).trans ((spares target targetBefore targetNow).2.symm.trans meansNow)
  have isIdentifier := sound.isIdentifier_of_meaning? means
  have xBefore : p.isAttached x = true := by
    rw [isAttached_eq linked rooted.isTop.top]
    exact (isWithin_root_of_meaning? rooted means).1
  cases xNow : found.program.isAttached x with
  | true =>
    have belongsNow : found.program.bindingOf? x = some object.binding := by
      rw [soundNow.bindingOf?_eq, (spares x xBefore xNow).2, means, ← meansNow,
        ← soundNow.bindingOf?_eq, belongs]
    have statementNow : found.program.isAttached entry.statement = true := by
      rw [isAttached_eq soundNow.linked soundNow.isTop.top] at attachedNow ⊢
      exact (ObjectLiteral.exists_apart_of_plan? aligned.steady attachedNow planned).1.attached _
        (List.mem_map_of_mem member)
    rw [← aligned.precedes_eq attached attachedNow xBefore xNow] at after
    rw [← aligned.precedes_eq xBefore xNow (isBefore member) statementNow,
      ← aligned.isWithin_eq (rooted.allocated_of_isAttached xBefore) xNow] at upTo
    rcases ObjectLiteral.fills_or_beside aligned.steady attachedNow planned member belongsNow
      after upTo with fills | ⟨beside, alike, ahead, within⟩
    · exact .inl fills
    · have besideNow := aligned.rooted.isAttached_of_isWithin xNow within
      have isOld := aligned.toRemnant.allocated_of_isWithin (rooted.allocated_of_isAttached xBefore)
        within
      obtain ⟨besideBefore, held⟩ := aligned.parent isOld besideNow
      have heldDeclarator :=
        (aligned.parent (rooted.allocated_of_isAttached attached) attachedNow).2
      refine .inr (.inl ⟨beside, held.symm.trans (alike.trans heldDeclarator), ?_, ?_⟩)
      · rwa [← aligned.precedes_eq attached attachedNow besideBefore besideNow]
      · rwa [← aligned.isWithin_eq (rooted.allocated_of_isAttached xBefore) xNow]
  | false =>
    rcases aligned.gone xBefore xNow with isDeclaration | ⟨outer, takes, within, isGone⟩
    · cases isNode : p.node x <;> simp_all [Node.isIdentifier, Node.identifier?,
        Node.isVariableDeclaration]
    · rcases takes with ⟨expression, isStatement⟩ | ⟨isObject, -⟩
      · exact .inr (.inr ⟨outer, expression, isStatement, within, isGone⟩)
      · have isOuter :=
          linked.eq_of_isWithin_leaf (by rw [show p.tree.node outer = _ from isObject]; rfl) within
        rw [isOuter, isObject] at isIdentifier
        cases isIdentifier

/-! ### A read beside the object -/

namespace ObjectLiteral

variable {declarator target init : NodeId} {object : EmptyObject} {entries : List Entry}

theorem step_ne_false {w v : Workspace}
    (planned : plan? w.program declarator = some (object, entries)) :
    step declarator w ≠ .ok false v := by
  rw [step, program_bind, planned]
  refine Affirms.bind (fun _ => ?_) w v
  exact .bind fun _ => .bind fun _ => .bind fun _ => .thenYes

theorem exists_visits (steady : p.Steady) (attached : p.isAttached declarator = true)
    {behind : List NodeId}
    (split : p.nodes.filter (fun id => isDeclarator (p.node id)) = declarator :: behind)
    (planned : plan? p declarator = some (object, entries)) :
    ∃ left last, Visits (fun p id => isDeclarator (p.node id)) step ⟨p, default⟩ declarator
      ⟨p, default⟩ left last := by
  obtain ⟨changed, last, ran, -⟩ := (lightens steady).exists_ok default
  have visited : visit (fun p id => isDeclarator (p.node id)) step ⟨p, default⟩ =
      .ok changed last := ran
  obtain ⟨left, visits⟩ := visits_first (show _ = [] ++ declarator :: behind from split)
    (List.forall_mem_nil _) attached visited fun _ => step_ne_false planned
  exact ⟨left, last, visits⟩

theorem emptyObject?_eq_some {name : String} {b : BindingId}
    (shape : p.node declarator = .variableDeclarator target (some init))
    (isEmpty : p.node init = .object []) (named : (p.node target).identifier? = some name)
    (belongs : p.bindingOf? target = some b) (constant : p.isConstantVariable b = true) :
    emptyObject? p declarator = some ⟨name, b, init⟩ := by
  simp [emptyObject?, shape, isEmpty, named, belongs, constant]

theorem plan?_eq_some {declaration : NodeId} {entry : Entry} {rest : List Entry}
    (isEmpty : emptyObject? p declarator = some object)
    (held : p.tree.parent? declarator = some declaration)
    (gathered : ObjectLiteral.entries p object (p.tree.followingStatements declaration) =
      entry :: rest) :
    plan? p declarator = some (object, entry :: rest) := by
  rw [plan?, isEmpty, Option.bind_eq_bind, Option.bind_some, held, Option.bind_eq_bind,
    Option.bind_some, gathered]

theorem added?_eq_some {statement expression left base key value : NodeId} {name label : String}
    {b : BindingId} (isStatement : p.node statement = .expressionStatement expression)
    (isAssignment : p.node expression = .assignment .assign left value)
    (isMember : p.node left = .member base key false) (isBase : p.node base = .identifier name)
    (isKey : p.node key = .identifier label) (belongs : p.bindingOf? base = some b)
    (silent : mentions p name value = false) :
    added? p ⟨name, b, init⟩ statement = some ⟨statement, .named label, value⟩ := by
  simp [added?, isStatement, isAssignment, isMember, isBase, isKey, belongs, silent, key?,
    Node.isIdentifierNamed, Node.identifier?]

theorem exists_emptyObject (t : Tree) (root declarator : NodeId) (d : Declaration)
    {body : List NodeId} (linked : t.Linked) (isTop : t.IsTop root) (wellBound : t.WellBound)
    (isProgram : t.node root = .program body)
    (reading : ∀ id ∈ t.descendants root, (t.useAt? id).all (fun use => !use.role.writes) = true)
    (single : ∀ d ∈ (t.lexicon root).declared, (t.lexicon root).binder? d.owner d.name = some d)
    (unconditional : (d.kind.isVariable && (d.owner ∈ t.ancestors d.declaration &&
      !((t.ancestors d.declaration).takeWhile (· ≠ d.owner)).any
        fun node => Scopes.isConditional (t.node node))) = true)
    (shape : t.node declarator = .variableDeclarator target (some init))
    (isEmpty : t.node init = .object []) (means : (t.lexicon root).meaning? target = some d) :
    ∃ scopes, Program.ofTree t root = .ok ⟨t, root, scopes, false⟩ ∧
      Steady ⟨t, root, scopes, false⟩ ∧
      ∃ b, emptyObject? ⟨t, root, scopes, false⟩ declarator = some ⟨d.name, b, init⟩ ∧
        ∀ id, (t.lexicon root).meaning? id = some d →
        bindingOf? ⟨t, root, scopes, false⟩ id = some b := by
  obtain ⟨scopes, made, steady⟩ := Program.exists_steady t root linked isTop wellBound isProgram
  set p : Program := ⟨t, root, scopes, false⟩ with isProgram
  have sound := steady.sound
  obtain ⟨b, stands, unwritten, belongs⟩ :=
    sound.exists_unwritten (Program.not_writes_of_uses linked isTop reading single d) means
  have constant : p.isConstantVariable b = true :=
    (sound.isConstantVariable_eq stands unwritten).trans unconditional
  refine ⟨scopes, made, steady, b, ?_, belongs⟩
  exact emptyObject?_eq_some shape isEmpty
    (sound.of_meaning? (show p.lexicon.meaning? target = some d from means)).1
    (belongs target means) constant

/-- The tree of `var o = {}, p = o; o.a = true;`. -/
def beside : Tree :=
  ⟨#[⟨.identifier "o", some ⟨2⟩⟩, ⟨.object [], some ⟨2⟩⟩,
    ⟨.variableDeclarator ⟨0⟩ (some ⟨1⟩), some ⟨6⟩⟩, ⟨.identifier "p", some ⟨5⟩⟩,
    ⟨.identifier "o", some ⟨5⟩⟩, ⟨.variableDeclarator ⟨3⟩ (some ⟨4⟩), some ⟨6⟩⟩,
    ⟨.variableDeclaration .var [⟨2⟩, ⟨5⟩], some ⟨13⟩⟩, ⟨.identifier "o", some ⟨9⟩⟩,
    ⟨.identifier "a", some ⟨9⟩⟩, ⟨.member ⟨7⟩ ⟨8⟩ false, some ⟨11⟩⟩,
    ⟨.literal (.boolean true), some ⟨11⟩⟩, ⟨.assignment .assign ⟨9⟩ ⟨10⟩, some ⟨12⟩⟩,
    ⟨.expressionStatement ⟨11⟩, some ⟨13⟩⟩, ⟨.program [⟨6⟩, ⟨12⟩], none⟩]⟩

theorem linked_beside : beside.Linked := Tree.linked_of_checks (by decide)

theorem exists_visits_beside :
    ∃ scopes left last b, Program.ofTree beside ⟨13⟩ = .ok ⟨beside, ⟨13⟩, scopes, false⟩ ∧
      Steady ⟨beside, ⟨13⟩, scopes, false⟩ ∧
      Visits (fun p id => isDeclarator (p.node id)) step ⟨⟨beside, ⟨13⟩, scopes, false⟩, default⟩
        ⟨2⟩ ⟨⟨beside, ⟨13⟩, scopes, false⟩, default⟩ left last ∧
      bindingOf? ⟨beside, ⟨13⟩, scopes, false⟩ ⟨4⟩ = bindingOf? ⟨beside, ⟨13⟩, scopes, false⟩ ⟨0⟩ ∧
      plan? ⟨beside, ⟨13⟩, scopes, false⟩ ⟨2⟩ =
        some (⟨"o", b, ⟨1⟩⟩, [⟨⟨12⟩, .named "a", ⟨10⟩⟩]) := by
  obtain ⟨scopes, made, steady, b, isEmpty, belongs⟩ := exists_emptyObject beside ⟨13⟩ ⟨2⟩
    ⟨⟨13⟩, "o", .var, ⟨2⟩, ⟨0⟩⟩ linked_beside ⟨by decide, by decide⟩
    (Tree.wellBound_of_bindsWell (by decide)) rfl (by decide) (by decide) rfl rfl rfl (by decide)
  set p : Program := ⟨beside, ⟨13⟩, scopes, false⟩ with isProgram
  have added : added? p ⟨"o", b, ⟨1⟩⟩ ⟨12⟩ = some ⟨⟨12⟩, .named "a", ⟨10⟩⟩ :=
    added?_eq_some rfl rfl rfl rfl rfl (belongs ⟨7⟩ (by decide)) rfl
  have planned : plan? p ⟨2⟩ = some (⟨"o", b, ⟨1⟩⟩, [⟨⟨12⟩, .named "a", ⟨10⟩⟩]) := by
    refine plan?_eq_some isEmpty rfl ?_
    rw [show p.tree.followingStatements ⟨6⟩ = [⟨12⟩] from rfl, ObjectLiteral.entries, added]
    rfl
  obtain ⟨left, last, visits⟩ := exists_visits steady rfl rfl planned
  exact ⟨scopes, left, last, b, made, steady, visits,
    (belongs ⟨4⟩ (by decide)).trans (belongs ⟨0⟩ (by decide)).symm, planned⟩

/-- The tree of `var o = {}; o.a = true; p(o);`. -/
def readAfter : Tree :=
  ⟨#[⟨.identifier "o", some ⟨2⟩⟩, ⟨.object [], some ⟨2⟩⟩,
    ⟨.variableDeclarator ⟨0⟩ (some ⟨1⟩), some ⟨3⟩⟩, ⟨.variableDeclaration .var [⟨2⟩], some ⟨14⟩⟩,
    ⟨.identifier "o", some ⟨6⟩⟩, ⟨.identifier "a", some ⟨6⟩⟩, ⟨.member ⟨4⟩ ⟨5⟩ false, some ⟨8⟩⟩,
    ⟨.literal (.boolean true), some ⟨8⟩⟩, ⟨.assignment .assign ⟨6⟩ ⟨7⟩, some ⟨9⟩⟩,
    ⟨.expressionStatement ⟨8⟩, some ⟨14⟩⟩, ⟨.identifier "p", some ⟨12⟩⟩,
    ⟨.identifier "o", some ⟨12⟩⟩, ⟨.call ⟨10⟩ [⟨11⟩], some ⟨13⟩⟩,
    ⟨.expressionStatement ⟨12⟩, some ⟨14⟩⟩, ⟨.program [⟨3⟩, ⟨9⟩, ⟨13⟩], none⟩]⟩

theorem linked_readAfter : readAfter.Linked := Tree.linked_of_checks (by decide)

theorem exists_visits_readAfter : ∃ scopes left last b,
    Program.ofTree readAfter ⟨14⟩ = .ok ⟨readAfter, ⟨14⟩, scopes, false⟩ ∧
    Steady ⟨readAfter, ⟨14⟩, scopes, false⟩ ∧
    Visits (fun p id => isDeclarator (p.node id)) step ⟨⟨readAfter, ⟨14⟩, scopes, false⟩, default⟩
      ⟨2⟩ ⟨⟨readAfter, ⟨14⟩, scopes, false⟩, default⟩ left last ∧
    plan? ⟨readAfter, ⟨14⟩, scopes, false⟩ ⟨2⟩ =
      some (⟨"o", b, ⟨1⟩⟩, [⟨⟨9⟩, .named "a", ⟨7⟩⟩]) := by
  obtain ⟨scopes, made, steady, b, isEmpty, belongs⟩ := exists_emptyObject readAfter ⟨14⟩ ⟨2⟩
    ⟨⟨14⟩, "o", .var, ⟨2⟩, ⟨0⟩⟩ linked_readAfter ⟨by decide, by decide⟩
    (Tree.wellBound_of_bindsWell (by decide)) rfl (by decide) (by decide) rfl rfl rfl (by decide)
  set p : Program := ⟨readAfter, ⟨14⟩, scopes, false⟩ with isProgram
  have added : added? p ⟨"o", b, ⟨1⟩⟩ ⟨9⟩ = some ⟨⟨9⟩, .named "a", ⟨7⟩⟩ :=
    added?_eq_some rfl rfl rfl rfl rfl (belongs ⟨4⟩ (by decide)) rfl
  have planned : plan? p ⟨2⟩ = some (⟨"o", b, ⟨1⟩⟩, [⟨⟨9⟩, .named "a", ⟨7⟩⟩]) := by
    refine plan?_eq_some isEmpty rfl ?_
    rw [show p.tree.followingStatements ⟨3⟩ = [⟨9⟩, ⟨13⟩] from rfl, ObjectLiteral.entries, added]
    rfl
  obtain ⟨left, last, visits⟩ := exists_visits steady rfl rfl planned
  exact ⟨scopes, left, last, b, made, steady, visits, planned⟩

end ObjectLiteral

/-- Where the object has no declarator beside its own and nothing is gone, all that means it up to
the assignment is the left side of that. -/
theorem Program.Reached.exists_hides_no_read :
    ∃ p left last, Program.ofTree ObjectLiteral.readAfter ⟨14⟩ = .ok p ∧
      Visits (fun p id => ObjectLiteral.isDeclarator (p.node id)) ObjectLiteral.step
        ⟨p, default⟩ ⟨2⟩ ⟨p, default⟩ left last ∧
        ∃ object entry, ObjectLiteral.plan? p ⟨2⟩ = some (object, [entry]) ∧
          p.isAttached entry.statement = true ∧
          ∀ x, p.bindingOf? x = p.bindingOf? ⟨0⟩ → p.tree.precedes ⟨2⟩ x = true →
            p.tree.precedes x entry.statement = true ∨ p.tree.isWithin x entry.statement = true →
              ObjectLiteral.Fills p entry x := by
  obtain ⟨scopes, left, last, b, made, steady, visits, planned⟩ :=
    ObjectLiteral.exists_visits_readAfter
  have linked := ObjectLiteral.linked_readAfter
  have sorted :=
    steady.sound.rooted.sorted_of_isSorted (show ObjectLiteral.readAfter.isSorted = true by decide)
  obtain ⟨object, entries, target, init, plannedToo, shape, attached, hides⟩ := hides_no_read
    (.made linked ⟨by decide, by decide⟩ made) steady.sound.verify steady.wellBound sorted visits
  obtain ⟨rfl, -⟩ := Node.variableDeclarator.inj shape
  obtain ⟨rfl, rfl⟩ := Prod.mk.inj (Option.some.inj (planned.symm.trans plannedToo))
  have member := List.mem_singleton_self (⟨⟨9⟩, .named "a", ⟨7⟩⟩ : ObjectLiteral.Entry)
  refine ⟨_, left, last, made, visits, _, _, planned, attached _ member,
    fun x same after upTo => ?_⟩
  rcases hides _ member x same after upTo with ⟨other, isOther, fills⟩ | ⟨beside, held, ahead, -⟩ |
    ⟨outer, expression, isStatement, -, gone⟩
  · obtain rfl := List.mem_singleton.mp isOther
    exact fills
  · -- The declaration has one declarator.
    have isChild : beside ∈ (ObjectLiteral.readAfter.node ⟨3⟩).children :=
      linked.mem_children.mpr held
    obtain rfl := List.mem_singleton.mp isChild
    cases (show ObjectLiteral.readAfter.precedes ⟨2⟩ ⟨2⟩ = false by decide).symm.trans ahead
  · have allocated : outer.index < 15 := by
      by_contra missing
      cases (Tree.node_of_not_allocated missing : ObjectLiteral.readAfter.node outer =
        .empty).symm.trans isStatement
    have all : ∀ i < 15, ObjectLiteral.readAfter.isWithin ⟨i⟩ ⟨14⟩ = true := by decide
    rw [isAttached_eq steady.linked steady.isTop.top] at gone
    cases (all _ allocated).symm.trans gone

/-- An object is filled although it is read before that, in a declarator beside its own. -/
theorem Rule.exists_hidden_read :
    ∃ p left last object entries, Program.ofTree ObjectLiteral.beside ⟨13⟩ = .ok p ∧
      (∃ changed, Rule.run .objectReconstruction ⟨p, default⟩ = .ok changed last) ∧
      Visits (fun p id => ObjectLiteral.isDeclarator (p.node id)) ObjectLiteral.step
        ⟨p, default⟩ ⟨2⟩ ⟨p, default⟩ left last ∧
        ObjectLiteral.plan? p ⟨2⟩ = some (object, entries) ∧
        p.bindingOf? ⟨4⟩ = some object.binding ∧
          p.tree.precedes ⟨2⟩ ⟨4⟩ = true ∧
          (∃ entry ∈ entries, p.tree.precedes ⟨4⟩ entry.statement = true) ∧
            ¬∃ entry ∈ entries, ObjectLiteral.Fills p entry ⟨4⟩ := by
  obtain ⟨scopes, left, last, b, made, steady, visits, belongs, planned⟩ :=
    ObjectLiteral.exists_visits_beside
  obtain ⟨_, shape, -, -, isObject, -⟩ := ObjectLiteral.shape_of_emptyObject?
    (ObjectLiteral.of_plan? planned).1
  obtain ⟨rfl, -⟩ := Node.variableDeclarator.inj shape
  refine ⟨_, left, last, _, _, made, visits.run, visits, planned, belongs.trans isObject,
    (show ObjectLiteral.beside.precedes ⟨2⟩ ⟨4⟩ = true by decide), ⟨_, List.mem_singleton_self _,
    (show ObjectLiteral.beside.precedes ⟨4⟩ ⟨12⟩ = true by decide)⟩, ?_⟩
  rintro ⟨entry, member, expression, left, label, computed, statementShape,
    expressionShape, targetShape⟩
  obtain rfl := List.mem_singleton.mp member
  obtain rfl := Node.expressionStatement.inj statementShape
  obtain ⟨-, rfl, -⟩ := Node.assignment.inj expressionShape
  obtain ⟨same, -⟩ := Node.member.inj targetShape
  cases same

end Unravel
