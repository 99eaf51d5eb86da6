import Unravel.Proofs.Simplify.Lighten
import Unravel.Proofs.Simplify.Orderly

/-!
Rules that take declarators of variables away. The uses of the variables become pieces without
declarators (`SimplifyM.Surely.fill`), and the declarators, which stand in declarations of
variables, can be removed (`Program.Declares.remove`). So a program is weighed by its declarators.
-/

namespace Unravel

open SimplifyM

variable {p q : Program} {id : NodeId}

def allDeclarators : Weighing ℕ := .sum fun
  | .variableDeclarator .. => 1
  | _ => 0

namespace Program

def Relieves {M : Type} [AddCommMonoid M] [LinearOrder M] (p : Program) (W : Weighing M)
    (q : Program) : Prop :=
  ∀ {id}, p.tree.Allocated id → q.tree.weight W id ≤ p.tree.weight W id

theorem Relieves.weight_le {M : Type} [AddCommMonoid M] [LinearOrder M] {W : Weighing M}
    (relieves : p.Relieves W q) (leads : p.Leads q) (isTop : p.tree.IsTop p.root) :
    q.weight W ≤ p.weight W := by
  rw [weight, weight, leads.root]
  exact relieves isTop.allocated

/-- Whether a node is still where it was. -/
def Stays (p : Program) (id : NodeId) (q : Program) : Prop :=
  q.tree.isWithin id q.root = true ∧ q.tree.parent? id = p.tree.parent? id

theorem Stays.trans {r : Program} (first : p.Stays id q) (second : q.Stays id r) : p.Stays id r :=
  ⟨second.1, second.2.trans first.2⟩

/-- A declarator of a program that stands in a declaration of variables. -/
structure Declares (p : Program) (declarator : NodeId) : Prop where
  attached : p.tree.isWithin declarator p.root = true
  isDeclarator : (p.node declarator).isDeclarator = true
  held : ∃ declaration, p.tree.parent? declarator = some declaration ∧
    (p.node declaration).isVariableDeclaration = true

theorem Sound.declares (sound : p.Sound) {declarator name : NodeId} {init : Option NodeId}
    {binding : BindingId} (attached : p.tree.isWithin declarator p.root = true)
    (shape : p.node declarator = .variableDeclarator name init)
    (belongs : p.bindingOf? name = some binding) : p.Declares declarator where
  attached := attached
  isDeclarator := by
    rw [shape]
    rfl
  held := sound.exists_declaration shape belongs

namespace Declares

variable {declarator other : NodeId} (declares : p.Declares declarator)

include declares

theorem stays (linked : p.tree.Linked) (leads : p.Leads q) (stays : p.Stays declarator q) :
    q.Declares declarator := by
  obtain ⟨declaration, held, isDeclaration⟩ := declares.held
  have tag := leads.tag (Tree.allocated_of_parent? held)
  have holderTag := leads.tag (linked.allocated_parent held)
  refine ⟨stays.1, ?_, declaration, stays.2.trans held, ?_⟩
  · rw [node, ← Node.isDeclarator_tag, tag, Node.isDeclarator_tag]
    exact declares.isDeclarator
  · rw [node, ← Node.isVariableDeclaration_tag, holderTag, Node.isVariableDeclaration_tag]
    exact isDeclaration

theorem weighs (linked : p.tree.Linked) : p.tree.weight allDeclarators declarator =
    1 + p.tree.weightBelow allDeclarators declarator := by
  obtain ⟨_, held, -⟩ := declares.held
  have isDeclarator := declares.isDeclarator
  rw [linked.weight_eq allDeclarators (Tree.allocated_of_parent? held)]
  cases shape : p.tree.node declarator <;> simp_all [node, Node.isDeclarator]
  rfl

theorem eq_of_isWithin (linked : p.tree.Linked)
    (light : p.tree.weight allDeclarators declarator ≤ 1) (another : p.Declares other)
    (within : p.tree.isWithin other declarator = true) : other = declarator := by
  by_contra different
  obtain ⟨child, member, below⟩ := linked.exists_child within different
  have heavy := linked.weight_le_of_isWithin allDeclarators
    (Tree.allocated_of_parent? (linked.mem_children.mp member)) below
  have below : p.tree.weight allDeclarators child ≤ p.tree.weightBelow allDeclarators declarator :=
    Tree.le_sum_of_mem (List.mem_map_of_mem member)
  rw [declares.weighs linked] at light
  rw [another.weighs linked] at heavy
  omega

theorem remove (steady : p.Steady) : Surely p (SimplifyM.remove declarator) fun _ q =>
    q.weight allDeclarators + 1 ≤ p.weight allDeclarators ∧ p.Relieves allDeclarators q ∧
      (p.tree.weight allDeclarators declarator ≤ 1 → ∀ other, p.Declares other →
      other ≠ declarator →
        q.Declares other) := by
  have linked := steady.linked
  obtain ⟨declaration, held, isDeclaration⟩ := declares.held
  obtain ⟨kind, declarators, shape⟩ := Node.exists_of_isVariableDeclaration isDeclaration
  obtain ⟨removable, leaves⟩ := steady.removable_declarator declares.attached held shape
  have heavy : 1 ≤ p.tree.weight allDeclarators (p.leaving declarator) := by
    have itself : 1 ≤ p.tree.weight allDeclarators declarator := by
      rw [declares.weighs linked]
      omega
    exact itself.trans (linked.weight_le_of_isWithin allDeclarators
      (linked.allocated_of_isWithin (linked.isWithin_root_of_above steady.isTop declares.attached
        (isWithin_leaving linked declarator)) steady.isTop.allocated)
        (isWithin_leaving linked declarator))
  refine .monoAfter (Surely.remove steady removable) fun _ q _ leads taken => ⟨?_, ?_, ?_⟩
  · exact taken.1.weight_carried (allDeclarators.carries_lt) heavy heavy
  · exact fun allocated => taken.1.weight_le (Nat.zero_le _) allocated
  · refine fun light other another different => another.stays linked leads ?_
    refine taken.1.loses.kept another.attached (Bool.eq_false_iff.mpr fun within => ?_)
    rcases leaves with same | ⟨same, only⟩
    · rw [same] at within
      exact different (declares.eq_of_isWithin linked light another within)
    · rw [same] at within
      have notDeclaration : other ≠ declaration := by
        rintro rfl
        have isDeclarator := another.isDeclarator
        rw [shape] at isDeclarator
        cases isDeclarator
      obtain ⟨child, member, below⟩ := linked.exists_child within notDeclaration
      rw [show (p.tree.node declaration).children = [declarator] from only, List.mem_singleton]
        at member
      rw [member] at below
      exact different (declares.eq_of_isWithin linked light another below)

end Declares

end Program

/-! ### Uses of names -/

structure Program.Fillable (p : Program) (use : NodeId) : Prop where
  free : p.Free use
  isIdentifier : (p.node use).isIdentifier = true
  attached : p.tree.isWithin use p.root = true

/-- Uses of names are replaced one by one by new pieces that weigh nothing. All else stays. -/
theorem SimplifyM.Surely.fill {M : Type} [AddCommMonoid M] [LinearOrder M]
    [IsOrderedCancelAddMonoid M] [IsBotZeroClass M] {W : Weighing M} {uses : List NodeId}
    {action : StateM Tree NodeId} (steady : p.Steady) (distinct : uses.Nodup)
    (fillable : ∀ use ∈ uses, p.Fillable use)
    (adds : ∀ q, q.Steady → p.Leads q → p.Relieves W q → q.tree.Adds W [] Tree.piece action 0) :
    Surely p (forIn uses PUnit.unit fun use _ => do
        discard (SimplifyM.replace use (← SimplifyM.build action))
        return ForInStep.yield PUnit.unit)
      fun _ q => p.Relieves W q ∧ ∀ id, p.tree.isWithin id p.root = true → id ∉ uses →
        p.Stays id q := by
  refine .monoAfter (.forIn_rest (fun rest q => p.Leads q ∧ rest.Nodup ∧ p.Relieves W q ∧
    ∀ id, p.tree.isWithin id p.root = true → id ∈ rest ∨ id ∉ uses → p.Stays id q) steady
      ⟨.refl p, distinct, fun _ => le_rfl, fun id attached _ => ⟨attached, rfl⟩⟩
        fun use rest q member steady leads kept => ?_)
    fun _ _ _ _ kept => ⟨kept.2.2.1, fun id attached notUse => kept.2.2.2 id attached (.inr notUse)⟩
  obtain ⟨-, distinct, relieves, stays⟩ := kept
  rw [List.nodup_cons] at distinct
  have place := fillable use member
  have attached := (stays use place.attached (.inl (List.mem_cons_self ..))).1
  have isIdentifier : (q.tree.node use).isIdentifier = true := by
    rw [← Node.isIdentifier_tag, leads.tag place.free.allocated, Node.isIdentifier_tag]
    exact place.isIdentifier
  refine .monoAfter (Surely.exchange (J := fun step _ => step = .yield .unit) steady
    (adds q steady leads relieves) (place.free.leads leads) attached
    (steady.ne_root fun body shape => ?_) fun piece r steady free allocated possible => ?_)
    fun step r _ further exchanged => ⟨exchanged.2, ?_⟩
  · rw [show q.tree.node use = _ from shape] at isIdentifier
    cases isIdentifier
  · exact .bind (Surely.discardReplace steady free allocated possible) fun _ _ steady _ replaced =>
      .pure steady ⟨replaced, rfl⟩
  · refine ⟨leads.trans further, distinct.2, fun allocated => ?_, fun id wasAttached remains => ?_⟩
    · exact (exchanged.1.weight_le steady zero_le (leads.allocated allocated)).trans
        (relieves allocated)
    · have different : id ≠ use := by
        rintro rfl
        rcases remains with later | notUse
        · exact distinct.1 later
        · exact notUse member
      have before := stays id wasAttached (remains.imp_left (List.mem_cons_of_mem _))
      refine before.trans ((exchanged.1.loses steady).kept before.1
        (Bool.eq_false_iff.mpr fun within => ?_))
      exact different (steady.linked.eq_of_isWithin_identifier isIdentifier within)

/-! ### Uses of constants -/

namespace ConstantUse

theorem weight_of_isStable {binding : BindingId} {init : NodeId} (linked : p.tree.Linked)
    (stable : isStable p binding init = true) :
    p.tree.Allocated init ∧ p.tree.weight allDeclarators init = 0 := by
  rw [isStable, Bool.or_eq_true] at stable
  rcases stable with isLiteral | named
  · exact linked.weight_of_isLiteralValue (fun _ => rfl) (fun _ => rfl) isLiteral
  · cases shape : p.tree.node init with
    | identifier name =>
      exact ⟨Tree.allocated_of_node_ne (by rw [shape]; simp), linked.weight_of_node allDeclarators
        (by simp) shape⟩
    | _ => simp [Program.node, shape, Node.identifier?] at named

theorem lightens (steady : p.Steady) :
    Surely p run fun changed q => True ∧ p.Lightens allDeclarators changed q := by
  refine .visit (fun _ => True) steady trivial
    fun declarator q steady _ _ _ attached => .program (.context fun c => ?_)
  split
  · exact .pure steady ⟨trivial, .refl q⟩
  · rename_i plan planned
    obtain ⟨binding, shape, belongs, -, isUses, stable⟩ := of_plan? planned
    obtain ⟨allocated, weightless⟩ := weight_of_isStable steady.linked stable
    have declares := steady.sound.declares attached shape belongs
    have fillable (use : NodeId) (member : use ∈ plan.uses) : q.Fillable use := by
      rw [isUses] at member
      obtain ⟨d, means⟩ := steady.sound.exists_meaning_of_reference belongs member
      exact ⟨steady.sound.free_of_reference belongs member,
        steady.sound.isIdentifier_of_meaning? means,
        (Program.isWithin_root_of_meaning? steady.sound.rooted means).1⟩
    have distinct : plan.uses.Nodup := isUses ▸ steady.sound.nodup_references belongs
    refine .snippet
      fun value =>
        .snippet fun name => .bind (Surely.fill (W := allDeclarators) steady distinct fillable
          fun r steadyAfter leads relieves => ?_) fun _ r after leads ⟨relieves, stays⟩ => ?_
    · have light := relieves allocated
      rw [weightless] at light
      exact (Tree.adds_copy steadyAfter.linked plan.init (leads.allocated allocated)).mono light
    · have notUse : declarator ∉ plan.uses := fun member => by
        have isIdentifier := (fillable declarator member).isIdentifier
        rw [shape] at isIdentifier
        cases isIdentifier
      refine .bind
        ((declares.stays steady.linked leads (stays declarator attached notUse)).remove after)
        fun _ s steadyAfter _ removed => ?_
      refine .bind (.record _ _ _ steadyAfter)
        fun _ _ steadyAfter _ same => .pure steadyAfter ⟨trivial, .of_lt ?_⟩
      subst same
      have lighter := relieves.weight_le leads steady.isTop
      omega

end ConstantUse

/-! ### Marshalled values -/

namespace Marshal

theorem perm_addTo (declarator : NodeId) (name value : String) (groups : List Group) :
    ((addTo declarator name value groups).flatMap (·.declarators)).Perm
      (declarator :: groups.flatMap (·.declarators)) := by
  induction groups with
  | nil => exact .refl _
  | cons group rest induction =>
    rw [addTo]
    split
    · rw [List.flatMap_cons, List.flatMap_cons, List.append_assoc]
      exact List.perm_middle
    · rw [List.flatMap_cons, List.flatMap_cons]
      exact (induction.append_left _).trans List.perm_middle

theorem declarators_addTo (declarator : NodeId) (name value : String) {groups : List Group}
    (each : ∀ group ∈ groups, group.declarators ≠ []) :
    ∀ group ∈ addTo declarator name value groups, group.declarators ≠ [] := by
  induction groups with
  | nil => simp [addTo]
  | cons head rest induction =>
    rw [List.forall_mem_cons] at each
    rw [addTo]
    split
    · exact List.forall_mem_cons.mpr ⟨by simp, each.2⟩
    · exact List.forall_mem_cons.mpr ⟨each.1, induction each.2⟩

def collect (p : Program) (function : String) (groups : List Group) (id : NodeId) : List Group :=
  match marshalled? p function id with
  | some (name, value) => addTo id name value groups
  | none => groups

theorem perm_foldl_collect (p : Program) (function : String) (nodes : List NodeId)
    (start : List Group) (each : ∀ group ∈ start, group.declarators ≠ []) :
    ((nodes.foldl (collect p function) start).flatMap (·.declarators)).Perm
        (nodes.filter (fun id => (marshalled? p function id).isSome) ++
          start.flatMap (·.declarators)) ∧
      ∀ group ∈ nodes.foldl (collect p function) start, group.declarators ≠ [] := by
  induction nodes generalizing start with
  | nil => exact ⟨.refl _, each⟩
  | cons id rest induction =>
    rw [List.foldl_cons, collect]
    cases found : marshalled? p function id with
    | none =>
      rw [List.filter_cons_of_neg (by simp [found])]
      exact induction start each
    | some result =>
      rw [List.filter_cons_of_pos (by simp [found]), List.cons_append]
      obtain ⟨same, nonempty⟩ := induction _ (declarators_addTo id result.1 result.2 each)
      exact ⟨same.trans (((perm_addTo ..).append_left _).trans List.perm_middle), nonempty⟩

theorem perm_groups (p : Program) (function : String) :
    ((groups p function).flatMap (·.declarators)).Perm
      (p.nodes.filter fun id => (marshalled? p function id).isSome) ∧
      ∀ group ∈ groups p function, group.declarators ≠ [] := by
  have collected := perm_foldl_collect p function p.nodes [] (by simp)
  rwa [List.flatMap_nil, List.append_nil] at collected

def IsSole (p : Program) (declarator : NodeId) : Prop :=
  p.Declares declarator ∧ p.tree.weight allDeclarators declarator ≤ 1

theorem isSole_of_marshalled? {function name value : String} (sound : p.Sound)
    (attached : p.tree.isWithin id p.root = true)
    (found : marshalled? p function id = some (name, value)) :
    IsSole p id := by
  have linked := sound.linked
  obtain ⟨target, init, binding, callee, argument, shape, isTarget, belongs, -, callShape,
    isCallee, isString⟩ :=
      of_marshalled? found
  refine ⟨sound.declares attached shape belongs, ?_⟩
  have leaf {id : NodeId} (isLeaf : (∃ name, p.tree.node id = .identifier name) ∨
      ∃ value, p.tree.node id = .literal value) : p.tree.weight allDeclarators id = 0 := by
    rcases isLeaf with ⟨_, shape⟩ | ⟨_, shape⟩ <;>
      exact linked.weight_of_node allDeclarators (by simp) shape
  have targetWeight : p.tree.weight allDeclarators target = 0 := by
    refine leaf (.inl ⟨name, ?_⟩)
    cases found : p.tree.node target <;> simp_all [Node.identifier?, Program.node]
  have calleeWeight : p.tree.weight allDeclarators callee = 0 := by
    refine leaf (.inl ⟨function, ?_⟩)
    cases found : p.tree.node callee <;> simp_all [Node.isIdentifierNamed,
      Node.identifier?, Program.node]
  have argumentWeight : p.tree.weight allDeclarators argument = 0 := by
    refine leaf (.inr ?_)
    cases found : p.tree.node argument <;> simp_all [Node.string?, Program.node]
  have initWeight : p.tree.weight allDeclarators init =
      0 + (p.tree.weight allDeclarators callee + (p.tree.weight allDeclarators argument + 0)) :=
    linked.weight_of_node allDeclarators (by simp) callShape
  have weighs : p.tree.weight allDeclarators id =
      1 + (p.tree.weight allDeclarators target + (p.tree.weight allDeclarators init + 0)) :=
    linked.weight_of_node allDeclarators (by simp) shape
  omega

theorem surely_remove {ids others : List NodeId} (steady : p.Steady)
    (distinct : (ids ++ others).Nodup) (sole : ∀ id ∈ ids ++ others, IsSole p id) :
    Surely p (forIn ids PUnit.unit fun declarator _ => do
        if (← SimplifyM.program).isAttached declarator then
          SimplifyM.remove declarator
          return ForInStep.yield PUnit.unit
        else return ForInStep.yield PUnit.unit)
      fun _ q => q.weight allDeclarators + ids.length ≤ p.weight allDeclarators ∧
        ∀ id ∈ others, IsSole q id := by
  refine .mono
    (.forIn_rest (fun rest q => (rest ++ others).Nodup ∧ (∀ id ∈ rest ++ others, IsSole q id) ∧
      q.weight allDeclarators + ids.length ≤ p.weight allDeclarators + rest.length) steady
      ⟨distinct, sole, le_rfl⟩ fun declarator rest q _ steady _ kept => .program ?_)
      fun _ _ kept => ⟨kept.2.2, kept.2.1⟩
  obtain ⟨distinct, sole, lighter⟩ := kept
  rw [List.cons_append, List.nodup_cons] at distinct
  rw [List.cons_append, List.forall_mem_cons] at sole
  obtain ⟨⟨declares, light⟩, others⟩ := sole
  rw [if_pos (by rw [Program.isAttached_eq steady.linked steady.isTop.top, declares.attached])]
  refine .bind (declares.remove steady) fun _ r steadyAfter leads ⟨lost, relieves, kept⟩ => ?_
  refine .pure steadyAfter ⟨rfl, distinct.2, fun id member => ?_, ?_⟩
  · obtain ⟨another, isLight⟩ := others id member
    have isAllocated := steady.linked.allocated_of_isWithin another.attached steady.isTop.allocated
    exact ⟨kept light id another (fun same => distinct.1 (same ▸ member)),
      (relieves isAllocated).trans isLight⟩
  · rw [List.length_cons] at lighter
    omega

theorem adds_encoded (t : Tree) (mode : MarshalMode) (value : String) :
    t.Adds allDeclarators [] Tree.piece (encoded mode value) 0 := by
  cases mode <;> exact Tree.adds_leaf rfl (by simp [Node.part]) fun sum => le_of_eq rfl

theorem fillable_of_mem_reads {name : String} {use : NodeId} (steady : p.Steady)
    (member : use ∈ reads p name) :
    p.Fillable use := by
  have free := free_of_mem_reads steady member
  rw [reads, List.mem_filter, Tree.identifiersNamed, List.mem_filter,
    steady.linked.mem_descendants_iff steady.isTop.allocated] at member
  refine ⟨free, ?_, member.1.1⟩
  have named := member.1.2
  rw [Node.isIdentifierNamed, decide_eq_true_eq] at named
  rw [Node.isIdentifier, Program.node, named, Option.isSome_some]

theorem lightens_unwrapGroup {group : Group} {rest : List NodeId} (mode : MarshalMode)
    (value : String) (steady : p.Steady) (nonempty : group.declarators ≠ [])
    (distinct : (group.declarators ++ rest).Nodup)
    (sole : ∀ id ∈ group.declarators ++ rest, IsSole p id) :
    Surely p (unwrapGroup mode group value) fun _ q =>
      q.weight allDeclarators < p.weight allDeclarators ∧ ∀ id ∈ rest, IsSole q id := by
  refine .bind (surely_remove steady distinct sole)
    fun _ q steadyAfter leads ⟨lost, kept⟩ => .program ?_
  have distinctReads : (reads q group.name).Nodup :=
    ((steadyAfter.linked.nodup_descendants steadyAfter.isTop.allocated).filter _).filter _
  refine .bind (Surely.fill (W := allDeclarators) steadyAfter distinctReads
    (fun use member => fillable_of_mem_reads steadyAfter member)
    fun r _ _ _ => adds_encoded r.tree mode value)
      fun _ r steadyFilled further ⟨relieves, stays⟩ => ?_
  refine .mono (.log _ steadyFilled) fun _ _ same => same ▸ ⟨?_, fun id member => ?_⟩
  · have positive := List.length_pos_of_ne_nil nonempty
    have lighter := relieves.weight_le further steadyAfter.isTop
    omega
  · obtain ⟨declares, light⟩ := kept id member
    have isAllocated := steadyAfter.linked.allocated_of_isWithin declares.attached
      steadyAfter.isTop.allocated
    refine ⟨declares.stays steadyAfter.linked further (stays id declares.attached fun isUse => ?_),
      (relieves isAllocated).trans light⟩
    have isIdentifier := (fillable_of_mem_reads steadyAfter isUse).isIdentifier
    have isDeclarator := declares.isDeclarator
    cases shape : q.node id <;> simp_all [Node.isIdentifier, Node.identifier?, Node.isDeclarator]

theorem lightens (function : String) (mode : MarshalMode) (steady : p.Steady) :
    Surely p (run function mode) fun changed q => True ∧ p.Lightens allDeclarators changed q := by
  obtain ⟨shared, nonempty⟩ := perm_groups p function
  have distinct : ((groups p function).flatMap (·.declarators)).Nodup :=
    shared.nodup_iff.mpr ((steady.linked.nodup_descendants steady.isTop.allocated).filter _)
  refine .context fun c => .program (.mono (Surely.anyChange (fun rest q =>
    (rest.flatMap (·.declarators)).Nodup ∧ ∀ id ∈ rest.flatMap (·.declarators), IsSole q id) steady
      ⟨distinct, fun id member => ?_⟩ fun group rest q isGroup steady _ ⟨distinct, sole⟩ => ?_)
        fun _ _ result => ⟨trivial, result.2⟩)
  · obtain ⟨isNode, isMarshalled⟩ := List.mem_filter.mp (shared.mem_iff.mp member)
    obtain ⟨⟨name, value⟩, found⟩ := Option.isSome_iff_exists.mp isMarshalled
    exact isSole_of_marshalled? steady.sound
      ((steady.linked.mem_descendants_iff steady.isTop.allocated).mp isNode) found
  · rw [List.flatMap_cons] at distinct sole
    have distinctRest := (List.nodup_append.mp distinct).2.1
    split
    · exact .pure steady ⟨⟨distinctRest, fun id member => sole id (List.mem_append_right _ member)⟩,
        .refl q⟩
    · refine .bind (lightens_unwrapGroup mode _ steady (nonempty group isGroup) distinct sole)
        fun _ r steady _ ⟨lighter, kept⟩ => ?_
      exact .pure steady ⟨⟨distinctRest, kept⟩, .of_lt lighter⟩

end Marshal

end Unravel
