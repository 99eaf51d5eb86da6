import Unravel.Proofs.Scope.Resolution
import Unravel.Proofs.Scope.WellBound

/-!
Two walks over the names of a program. The role of an identifier is found on the way up through the
patterns that it is in, the declarations on the way down from declarators, parameters and names.
They come to the same identifiers if patterns and declarators are in their places
(`Tree.WellPlaced`): on the way up from a pattern that declares names there is then a place that the
way down starts from (`Tree.WellPlaced.exists_place`). So an identifier has the role of a
declaration if and only if it is declared (`Tree.WellPlaced.role_eq_declaration_iff`).

The table of a program is made in two steps. The declarations come first (`Scopes.declarations`),
and the uses that are attached then add to the bindings and leave the rest as it is
(`Scopes.SameDeclared`).

Main statement: the roles of the identifiers say which of them the first step registers and for
which bindings the second one records the others (`Scopes.classifies`).
-/

namespace Unravel

theorem Node.isPattern_of_mem_pattern {α : Type} {n : Node α} {child : α}
    (held : child ∈ n.part .pattern) :
    n.isPattern = true ∧ n.isIdentifier = false := by
  cases n <;> simp_all [part, Node.isPattern, Node.isIdentifier, identifier?]

namespace Tree

/-- Patterns other than identifiers are targets of declarators, parameters, assigned to, or inside
such patterns. Declarators are in variable declarations. -/
structure WellPlaced (t : Tree) (root : NodeId) : Prop where
  pattern :
    ∀ {id}, t.isWithin id root = true → (t.node id).isPattern = true →
    (t.node id).isIdentifier = false →
    ∃ parent, ∃ part ∈ [.target, .params, .written, .pattern], id ∈ (t.node parent).part part
  declarator : ∀ {id}, t.isWithin id root = true → (t.node id).isDeclarator = true →
    ∃ parent, id ∈ (t.node parent).part .declarators

variable {t : Tree} {id parent root holder pattern : NodeId} {spelling : String}

def isAmong (t : Tree) (parts : List Part) (id : NodeId) : Bool :=
  (t.parent? id).any fun parent => parts.any (t.holds parent id)

def placesWell (t : Tree) : Bool :=
  ((List.range t.size).map NodeId.mk).all fun id =>
    (!(t.node id).isPattern || (t.node id).isIdentifier ||
      t.isAmong [.target, .params, .written, .pattern] id) &&
      (!(t.node id).isDeclarator || t.isAmong [.declarators] id)

theorem exists_part_of_isAmong {parts : List Part} (among : t.isAmong parts id = true) :
    ∃ parent, ∃ part ∈ parts, id ∈ (t.node parent).part part := by
  rw [isAmong, Option.any_eq_true] at among
  obtain ⟨parent, -, found⟩ := among
  obtain ⟨part, member, held⟩ := List.any_eq_true.mp found
  exact ⟨parent, part, member, of_decide_eq_true held⟩

theorem wellPlaced_of_placesWell (passes : t.placesWell = true) : t.WellPlaced root := by
  have each {id : NodeId} (filled : t.node id ≠ .empty) :
      ((t.node id).isPattern = true → (t.node id).isIdentifier = false →
        t.isAmong [.target, .params, .written, .pattern] id = true) ∧
      ((t.node id).isDeclarator = true → t.isAmong [.declarators] id = true) := by
    have allocated : t.Allocated id := Decidable.not_not.mp (mt node_of_not_allocated filled)
    have listed := List.mem_map_of_mem (f := NodeId.mk) (List.mem_range.mpr allocated)
    have passesHere := List.all_eq_true.mp passes id listed
    grind
  constructor
  · intro id _ isPattern compound
    apply exists_part_of_isAmong
    exact (each fun shape => by simp [shape, Node.isPattern] at isPattern).1 isPattern compound
  · intro id _ isDeclarator
    have among :=
      (each fun shape => by simp [shape, Node.isDeclarator] at isDeclarator).2 isDeclarator
    obtain ⟨parent, part, member, held⟩ := exists_part_of_isAmong among
    exact ⟨parent, List.mem_singleton.mp member ▸ held⟩

/-! ### The way up -/

namespace Linked

variable (linked : t.Linked)

include linked

theorem patternRole_of_mem_written (held : id ∈ (t.node parent).part .written) :
    t.patternRole id (t.ancestors id) = .mutation := by
  rw [linked.ancestors_of_parent (linked.parent?_of_mem_part held), patternRole]
  cases shape : t.node parent <;> simp_all [Node.part]

theorem patternNames_subset (held : id ∈ (t.node parent).part .pattern) :
    t.patternNames id ⊆ t.patternNames parent := by
  intro name member
  have allocated : t.Allocated parent :=
    allocated_of_mem_children (Node.mem_children_of_mem_part held)
  rw [linked.patternNames_eq allocated, if_neg (by simp [(Node.isPattern_of_mem_pattern held).2])]
  exact List.mem_flatMap.mpr ⟨id, held, member⟩

/-- Where an identifier has the role of a declaration: as a name, a parameter or a target itself, or
in a pattern that declares names. The name of a class expression declares nothing. -/
theorem part_of_role (role : t.role id = .declaration) : ∃ parent,
    (∃ part ∈ [.name, .params, .target], id ∈ (t.node parent).part part ∧
      ∀ c, t.node parent = .classDef c → c.isDeclaration = true) ∨
    id ∈ (t.node parent).part .pattern ∧ t.patternRole parent (t.ancestors parent) =
      .declaration := by
  cases held : t.parent? id with
  | none =>
    rw [Tree.role, held] at role
    cases role
  | some parent =>
    have member := linked.mem_children.mpr held
    refine ⟨parent, ?_⟩
    rw [Tree.role, held] at role
    dsimp only at role
    split at role
    case h_4 c shape =>
      obtain ⟨named, declares⟩ : c.name = some id ∧ c.isDeclaration = true := by grind
      exact .inl ⟨.name, by simp, by simp [shape, Node.part, named], by simp [shape, declares]⟩
    case h_5 f shape =>
      have place : f.name = some id ∨ id ∈ f.params := by grind
      rcases place with named | isParam
      · exact .inl ⟨.name, by simp, by simp [shape, Node.part, named], by simp [shape]⟩
      · exact .inl ⟨.params, by simp, by simp [shape, Node.part, isParam], by simp [shape]⟩
    case h_6 target init shape =>
      have isTarget : target = id := by grind
      exact .inl ⟨.target, by simp, by simp [shape, Node.part, isTarget], by simp [shape]⟩
    case h_7 left right shape =>
      have isLeft : left = id := by grind
      rw [if_pos isLeft] at role
      exact .inr ⟨by simp [shape, Node.part, isLeft], role⟩
    case h_8 argument shape | h_9 elements shape =>
      rw [shape] at member ⊢
      exact .inr ⟨member, role⟩
    -- The other places have other roles.
    all_goals grind

end Linked

theorem WellPlaced.exists_place (wellPlaced : t.WellPlaced root) (linked : t.Linked)
    (isTop : t.IsTop root) (attached : t.isWithin id root = true)
    (isPattern : (t.node id).isPattern = true) (compound : (t.node id).isIdentifier = false)
    (role : t.patternRole id (t.ancestors id) = .declaration) :
    ∃ holder pattern, ∃ part ∈ [.target, .params], pattern ∈ (t.node holder).part part ∧
      t.isWithin holder root = true ∧ t.patternNames id ⊆ t.patternNames pattern := by
  induction id using linked.induction with
  | step id induction =>
    obtain ⟨parent, part, isPlace, held⟩ := wellPlaced.pattern attached isPattern compound
    have above := linked.parent?_of_mem_part held
    have parentAttached := linked.isWithin_root_of_above isTop attached
      (linked.isWithin_of_parent above)
    simp only [List.mem_cons, List.not_mem_nil, or_false] at isPlace
    rcases isPlace with rfl | rfl | rfl | rfl
    · exact ⟨parent, id, .target, by simp, held, parentAttached, List.Subset.refl _⟩
    · exact ⟨parent, id, .params, by simp, held, parentAttached, List.Subset.refl _⟩
    · rw [linked.patternRole_of_mem_written held] at role
      cases role
    · rw [linked.patternRole_of_mem_pattern held] at role
      have form := Node.isPattern_of_mem_pattern held
      obtain ⟨holder, pattern, part, isPlace, placed, holderAttached, below⟩ :=
        induction parent above parentAttached form.1 form.2 role
      exact ⟨holder, pattern, part, isPlace, placed, holderAttached,
        List.Subset.trans (linked.patternNames_subset held) below⟩

/-! ### The way down -/

theorem exists_scope (opens : t.opens root = true) (attached : t.isWithin id root = true) :
    ∃ place rest, t.scopesFrom id = place :: rest := by
  have member : root ∈ t.scopesFrom id := mem_scopesFrom.mpr ⟨attached, opens⟩
  exact List.exists_cons_of_ne_nil (List.ne_nil_of_mem member)

theorem exists_scope_around (opens : t.opens root = true) (attached : t.isWithin id root = true)
    (below : id ≠ root) : ∃ place rest, t.scopesAround id = place :: rest := by
  have above := (isWithin_iff.mp attached).resolve_left below
  have member : root ∈ t.scopesAround id := mem_scopesAround.mpr ⟨above, opens⟩
  exact List.exists_cons_of_ne_nil (List.ne_nil_of_mem member)

theorem exists_hoistTarget (t : Tree) (place : NodeId) (rest : List NodeId) :
    ∃ owner, t.hoistTarget? (place :: rest) = some owner := by
  have nonempty := List.getLast?_eq_none_iff.not.mpr (List.cons_ne_nil place rest)
  obtain ⟨last, isLast⟩ := Option.ne_none_iff_exists'.mp nonempty
  rw [hoistTarget?, isLast]
  cases (List.dropWhile _ (place :: rest)).head? with
  | none => exact ⟨last, rfl⟩
  | some owner => exact ⟨owner, rfl⟩

namespace Linked

variable (linked : t.Linked) (isTop : t.IsTop root)

include linked isTop

theorem declared_of_names {owner declaration : NodeId} {kind : BindingKind} {names : List NodeId}
    (attached : t.isWithin holder root = true)
    (makes : t.declaredNames (some owner) kind declaration names ⊆ t.declarationsAt holder)
    (member : id ∈ names) (spelled : (t.node id).identifier? = some spelling) :
    ∃ d ∈ (t.lexicon root).declared, d.identifier = id := by
  refine ⟨⟨owner, spelling, kind, declaration, id⟩, (linked.mem_declared isTop).mpr ⟨holder,
    attached, ?_⟩, rfl⟩
  exact makes (mem_declaredNames.mpr ⟨rfl, rfl, rfl, member, spelled⟩)

variable (spelled : (t.node id).identifier? = some spelling)
  (attached : t.isWithin holder root = true)

include spelled attached

theorem declared_of_param (held : pattern ∈ (t.node holder).part .params)
    (member : id ∈ t.patternNames pattern) :
    ∃ d ∈ (t.lexicon root).declared, d.identifier = id := by
  have named : id ∈ t.namesIn holder .params := List.mem_flatMap.mpr ⟨pattern, held, member⟩
  have makes : t.declaredNames (some holder) .param holder (t.namesIn holder .params) ⊆
      t.declarationsAt holder := by
    cases shape : t.node holder <;> simp only [shape, Node.part, List.not_mem_nil] at held
    simp only [declarationsAt, shape, Node.tag]
    exact List.subset_append_right ..
  exact linked.declared_of_names isTop attached makes named spelled

theorem declared_of_target (opens : t.opens root = true)
    (inDeclaration : holder ∈ (t.node parent).part .declarators)
    (held : pattern ∈ (t.node holder).part .target) (member : id ∈ t.patternNames pattern) :
    ∃ d ∈ (t.lexicon root).declared, d.identifier = id := by
  have above := linked.isWithin_of_parent (linked.parent?_of_mem_part inDeclaration)
  have parentAttached := linked.isWithin_root_of_above isTop attached above
  have named : id ∈ t.namesIn holder .target := List.mem_flatMap.mpr ⟨pattern, held, member⟩
  obtain ⟨place, rest, places⟩ := exists_scope opens parentAttached
  cases shape : t.node parent <;> simp only [shape, Node.part, List.not_mem_nil] at inDeclaration
  case variableDeclaration kind declarators =>
    obtain ⟨owner, isOwner⟩ : ∃ owner, (if kind = .var then t.hoistTarget? (t.scopesFrom parent)
        else (t.scopesFrom parent).head?) = some owner := by
      rw [places]
      split
      · exact exists_hoistTarget t place rest
      · exact ⟨place, rfl⟩
    have makes : t.declaredNames (some owner) (.ofVarKind kind) holder (t.namesIn holder .target) ⊆
        t.declarationsAt parent := by
      intro d declared
      simp only [declarationsAt, shape, Node.tag, Node.part, isOwner]
      exact List.mem_flatMap.mpr ⟨holder, inDeclaration, declared⟩
    exact linked.declared_of_names isTop parentAttached makes named spelled

theorem declared_of_name (opens : t.opens root = true) (notRoot : holder ≠ root)
    (held : id ∈ (t.node holder).part .name)
    (declares : ∀ c, t.node holder = .classDef c → c.isDeclaration = true) :
    ∃ d ∈ (t.lexicon root).declared, d.identifier = id := by
  obtain ⟨place, rest, places⟩ := exists_scope opens attached
  obtain ⟨outer, others, around⟩ := exists_scope_around opens attached notRoot
  obtain ⟨owner, kind, makes⟩ : ∃ owner kind,
      t.declaredNames (some owner) kind holder ((t.node holder).part .name) ⊆
        t.declarationsAt holder := by
    cases shape : t.node holder <;> simp only [shape, Node.part, List.not_mem_nil] at held
    case function f =>
      simp only [declarationsAt, shape, Node.tag, around]
      split
      · exact ⟨outer, .function, List.subset_append_left ..⟩
      · exact ⟨holder, .local_, List.subset_append_left ..⟩
    case classDef c =>
      simp only [declarationsAt, shape, Node.tag, places, declares c shape, if_true]
      exact ⟨place, .class_, List.Subset.refl _⟩
  exact linked.declared_of_names isTop attached makes held spelled

end Linked

/-! ### Both ways -/

theorem WellPlaced.declared_of_place (wellPlaced : t.WellPlaced root) (linked : t.Linked)
    (isTop : t.IsTop root) (opens : t.opens root = true) {part : Part}
    (isPlace : part ∈ [.target, .params]) (held : pattern ∈ (t.node holder).part part)
    (attached : t.isWithin holder root = true) (member : id ∈ t.patternNames pattern)
    (spelled : (t.node id).identifier? = some spelling) :
    ∃ d ∈ (t.lexicon root).declared, d.identifier = id := by
  simp only [List.mem_cons, List.not_mem_nil, or_false] at isPlace
  rcases isPlace with rfl | rfl
  · have isDeclarator : (t.node holder).isDeclarator = true := by
      cases shape : t.node holder <;> simp_all [Node.part, Node.isDeclarator]
    obtain ⟨parent, inDeclaration⟩ := wellPlaced.declarator attached isDeclarator
    exact linked.declared_of_target isTop spelled attached opens inDeclaration held member
  · exact linked.declared_of_param isTop spelled attached held member

theorem Linked.isDeclaration_of_mem (linked : t.Linked) {d : Declaration}
    (member : d ∈ t.declarationsAt id) (held : t.parent? d.identifier = some parent)
    {c : ClassDef NodeId} (shape : t.node parent = .classDef c) :
    c.isDeclaration = true := by
  obtain ⟨holder, pattern, part, patternHeld, named, position⟩ :=
    (linked.introduces_of_mem member).place
  have allocated := linked.allocated_of_mem_part patternHeld
  have isPattern : d.identifier = pattern := by
    by_contra different
    have nested := linked.mem_pattern_of_between allocated named isWithin_self
      (linked.isWithin_of_mem_patternNames allocated named) different held
    simp [shape, Node.part] at nested
  have isHolder : holder = parent := by
    have above := linked.parent?_of_mem_part patternHeld
    rw [← isPattern, held, Option.some.injEq] at above
    exact above.symm
  subst isHolder
  rcases position with ⟨-, rfl⟩ | ⟨rfl, -⟩
  · rw [declarationsAt, shape] at member
    cases declares : c.isDeclaration with
    | true => rfl
    | false => simp [Node.tag, declares] at member
  · simp [shape, Node.part] at patternHeld

theorem WellPlaced.role_eq_declaration_iff (wellPlaced : t.WellPlaced root) (linked : t.Linked)
    (isTop : t.IsTop root) {body : List NodeId} (program : t.node root = .program body)
    (attached : t.isWithin id root = true) (spelled : (t.node id).identifier? = some spelling) :
    t.role id = .declaration ↔ ∃ d ∈ (t.lexicon root).declared, d.identifier = id := by
  have opens : t.opens root = true := by simp [Tree.opens, scopeKind?, program]
  have allocated := linked.allocated_of_isWithin attached isTop.allocated
  have own : id ∈ t.patternNames id := by
    rw [linked.patternNames_of_identifier allocated spelled]
    exact List.mem_singleton_self id
  constructor
  · intro role
    obtain ⟨parent, ⟨part, isPlace, held, declares⟩ | ⟨held, outerRole⟩⟩ := linked.part_of_role role
    · have above := linked.isWithin_of_parent (linked.parent?_of_mem_part held)
      have parentAttached := linked.isWithin_root_of_above isTop attached above
      simp only [List.mem_cons, List.not_mem_nil, or_false] at isPlace
      rcases isPlace with rfl | isPlace
      · have notRoot : parent ≠ root := by
          rintro rfl
          simp [program, Node.part] at held
        exact linked.declared_of_name isTop spelled parentAttached opens notRoot held declares
      · exact wellPlaced.declared_of_place linked isTop opens (by simpa [or_comm] using isPlace)
          held parentAttached own spelled
    · have above := linked.isWithin_of_parent (linked.parent?_of_mem_part held)
      have parentAttached := linked.isWithin_root_of_above isTop attached above
      have form := Node.isPattern_of_mem_pattern held
      obtain ⟨holder, pattern, part, isPlace, placed, holderAttached, names⟩ :=
        wellPlaced.exists_place linked isTop parentAttached form.1 form.2 outerRole
      exact wellPlaced.declared_of_place linked isTop opens isPlace placed holderAttached
        (names (linked.patternNames_subset held own)) spelled
  · rintro ⟨d, declared, rfl⟩
    obtain ⟨at_, -, member⟩ := (linked.mem_declared isTop).mp declared
    apply (linked.role_of_binds (linked.binds_of_mem member)).resolve_right
    rintro ⟨-, parent, c, held, shape, isExpression⟩
    rw [linked.isDeclaration_of_mem member held shape] at isExpression
    cases isExpression

end Tree

namespace Scopes

variable {s : Scopes} {l : Lexicon} {t : Tree} {root id : NodeId} {b : BindingId} {name : String}

/-- The table of a tree before any use is attached. -/
def declarations (t : Tree) (root : NodeId) : Scopes := declareWithin t none empty t.size root

/-- A binding is declared by an identifier, or written by it. -/
def Registers (s : Scopes) (b : BindingId) (id : NodeId) : Prop :=
  b.index < s.bindings.size ∧ ((s.binding b).identifier = id ∨ id ∈ (s.binding b).mutations)

/-- A binding has an identifier among those that belong to it. -/
def Records (s : Scopes) (b : BindingId) (id : NodeId) :
    Prop := s.Registers b id ∨ id ∈ (s.binding b).references

theorem index_of_binding_ne (different : s.binding b ≠ default) : b.index < s.bindings.size := by
  by_contra outside
  apply different
  rw [binding, Array.getElem?_eq_none (Nat.le_of_not_lt outside), Option.getD_none]

theorem index_of_mem_references (member : id ∈ (s.binding b).references) :
    b.index < s.bindings.size := by
  apply index_of_binding_ne
  intro isDefault
  rw [isDefault] at member
  cases member

theorem index_of_mem_mutations (member : id ∈ (s.binding b).mutations) :
    b.index < s.bindings.size := by
  apply index_of_binding_ne
  intro isDefault
  rw [isDefault] at member
  cases member

/-! ### Tables without retired bindings -/

def IsLive (s : Scopes) : Prop := ∀ b, (s.binding b).retired = false

theorem core_modifyBinding (s : Scopes) (id b : BindingId) {f : Binding → Binding}
    (keeps : ∀ b, core (f b) = core b) :
    core ((s.modifyBinding id f).binding b) = core (s.binding b) := by
  simp only [binding, modifyBinding, Array.getElem?_modify]
  split
  · cases s.bindings[b.index]? with
    | none => rfl
    | some found => exact keeps found
  · rfl

theorem IsLive.declare (live : s.IsLive) (t : Tree) (scope : ScopeId) (kind : BindingKind)
    (declaration id : NodeId) :
    (s.declare t scope kind declaration id).IsLive := by
  intro b
  rw [Scopes.declare]
  split
  · exact live b
  · split
    · rename_i existing _
      have same := core_modifyBinding s existing b
        (f := fun b => { b with mutations := b.mutations ++ [id] }) fun _ => rfl
      exact (congrArg Binding.retired same).trans (live b)
    · simp only [binding, Array.getElem?_push]
      split
      · rfl
      · exact live b

/--
Whatever holds at the start and stays true when a scope is opened and when a name is declared holds
at the end. -/
theorem declareWithin_induction {motive : Scopes → Prop}
    (opened : ∀ s kind node outer, motive s → motive (s.openScope kind node outer).2)
    (declared : ∀ s scope kind declaration id, motive s →
      motive (s.declare t scope kind declaration id))
    (start : motive s) {outer : Option ScopeId} {limit : Nat} {node : NodeId} :
    motive (declareWithin t outer s limit node) := by
  have pattern {s : Scopes} (start : motive s) (scope : ScopeId) (kind : BindingKind)
      (declaration pattern : NodeId) :
      motive (s.declarePattern t scope kind declaration pattern) :=
    List.foldlRecOn _ _ start fun s so id _ => declared s scope kind declaration id so
  have entered {s : Scopes} (start : motive s) (inner outer : Option ScopeId) (node : NodeId) :
      motive (s.declareNode t inner outer node) := by
    unfold declareNode
    split
    · refine List.foldlRecOn _ _ start fun s so declarator _ => ?_
      split
      · exact pattern so ..
      · exact so
    · refine List.foldlRecOn _ _ ?_ fun s so param _ => pattern so ..
      unfold declareFunctionName
      split
      · exact declared _ _ _ _ _ start
      · exact declared _ _ _ _ _ start
      · exact start
    · exact declared _ _ _ _ _ start
    · exact start
  induction limit generalizing s outer node with
  | zero => exact start
  | succ limit induction =>
    rw [declareWithin]
    cases t.scopeKind? node with
    | none => exact List.foldlRecOn _ _ (entered start ..) fun s so child _ => induction so
    | some kind =>
      exact List.foldlRecOn _ _ (entered (opened _ _ _ _ start) ..) fun s so child _ => induction so

theorem isLive_declarations (t : Tree) (root : NodeId) : (declarations t root).IsLive := by
  apply declareWithin_induction (motive := IsLive)
  · intro s kind node outer live
    exact live
  · intro s scope kind declaration id live
    exact live.declare t scope kind declaration id
  · intro b
    rfl

/-! ### Attaching uses -/

structure SameDeclared (s s' : Scopes) : Prop where
  find? : ∀ owner name, s'.find? owner name = s.find? owner name
  size : s'.bindings.size = s.bindings.size
  core : ∀ b, core (s'.binding b) = core (s.binding b)

theorem SameDeclared.identifier {s' : Scopes} (same : s.SameDeclared s') (b : BindingId) :
    (s'.binding b).identifier = (s.binding b).identifier := by
  have identifiers := congrArg Binding.identifier (same.core b)
  exact identifiers

theorem SameDeclared.isLive {s' : Scopes} (same : s.SameDeclared s') (live : s.IsLive) :
    s'.IsLive := by
  intro b
  exact (congrArg Binding.retired (same.core b)).trans (live b)

theorem SameDeclared.attachUse {s' : Scopes} (same : s.SameDeclared s') (t : Tree) (id : NodeId) :
    s.SameDeclared (s'.attachUse t id) := by
  rw [Scopes.attachUse]
  split
  · exact same
  · dsimp only
    split
    · refine ⟨same.find?, (size_modifyBinding ..).trans same.size, fun b => ?_⟩
      refine Eq.trans ?_ (same.core b)
      exact core_modifyBinding s' _ b (f := fun b => { b with
        references := if (t.role id).reads then b.references ++ [id] else b.references
        mutations := if (t.role id).writes then b.mutations ++ [id] else b.mutations }) fun _ => rfl
    · exact same

theorem sameDeclared_attachUses (s : Scopes) (t : Tree) (ids : List NodeId) :
    s.SameDeclared (ids.foldl (attachUse t) s) :=
  List.foldlRecOn ids (attachUse t) ⟨fun _ _ => rfl, rfl, fun _ => rfl⟩
    fun _ same id _ => same.attachUse t id

/-! ### What is recorded -/

namespace Describes

variable (describes : s.Describes l) (live : s.IsLive)

include describes live

/-- Each binding of a table without retired ones stands for a declaration. -/
theorem exists_declaration (inside : b.index < s.bindings.size) :
    ∃ d, l.binder? d.owner d.name = some d ∧ s.find? d.owner d.name = some b ∧ s.Stands b d := by
  obtain ⟨owner, name, found⟩ := describes.live b inside (live b)
  obtain ⟨d, bound, stands⟩ := describes.stands found
  obtain ⟨-, rfl, rfl⟩ := Lexicon.binder?_some bound
  exact ⟨d, bound, found, stands⟩

theorem mem_references_iff_reads : id ∈ (s.binding b).references ↔
    ∃ d, l.binder? d.owner d.name = some d ∧ s.find? d.owner d.name = some b ∧ l.Reads d id := by
  constructor
  · intro member
    obtain ⟨d, bound, found, -⟩ := describes.exists_declaration live
      (index_of_mem_references member)
    exact ⟨d, bound, found, ((describes.references d b bound found).2 id).mp member⟩
  · intro ⟨d, bound, found, reads⟩
    exact ((describes.references d b bound found).2 id).mpr reads

theorem mem_mutations_iff_writes : id ∈ (s.binding b).mutations ↔
    ∃ d, l.binder? d.owner d.name = some d ∧ s.find? d.owner d.name = some b ∧ l.Writes d id := by
  constructor
  · intro member
    obtain ⟨d, bound, found, -⟩ := describes.exists_declaration live (index_of_mem_mutations member)
    exact ⟨d, bound, found, ((describes.mutations d b bound found).2 id).mp member⟩
  · intro ⟨d, bound, found, writes⟩
    exact ((describes.mutations d b bound found).2 id).mpr writes

variable (regular : l.Regular)

include regular

theorem records_iff : s.Records b id ↔ s.bindingOf? id = some b := by
  rw [bindingOf?, describes.occurrences]
  constructor
  · intro recorded
    apply Option.bind_eq_some_iff.mpr
    rcases recorded with ⟨inside, isIdentifier | member⟩ | member
    · obtain ⟨d, bound, found, stands⟩ := describes.exists_declaration live inside
      have means := regular.meaning?_of_declared (Lexicon.binder?_some bound).1
      rw [← stands.identifier, isIdentifier, bound] at means
      exact ⟨d, means, found⟩
    · obtain ⟨d, -, found, writes⟩ := (describes.mem_mutations_iff_writes live).mp member
      exact ⟨d, regular.meaning?_of_writes writes, found⟩
    · obtain ⟨d, -, found, reads⟩ := (describes.mem_references_iff_reads live).mp member
      exact ⟨d, Lexicon.meaning?_of_reads reads, found⟩
  · intro belongs
    obtain ⟨d, means, found⟩ := Option.bind_eq_some_iff.mp belongs
    have bound := Lexicon.meaning?_some means
    obtain ⟨e, alsoBound, stands⟩ := describes.stands found
    rw [bound, Option.some.injEq] at alsoBound
    subst alsoBound
    by_cases own : id = d.identifier
    · exact .inl ⟨stands.index, .inl (stands.identifier.trans own.symm)⟩
    · rcases regular.reads_or_writes means own with reads | writes
      · exact .inr ((describes.mem_references_iff_reads live).mpr ⟨d, bound, found, reads⟩)
      · exact .inl ⟨stands.index,
          .inr ((describes.mem_mutations_iff_writes live).mpr ⟨d, bound, found, writes⟩)⟩

theorem exists_registers_iff (noUses : ∀ id, l.uses id = none) :
    (∃ b, s.Registers b id) ↔ ∃ d ∈ l.declared, d.identifier = id := by
  have unread (b : BindingId) : id ∉ (s.binding b).references := by
    intro member
    obtain ⟨d, -, -, use, isUse, -⟩ := (describes.mem_references_iff_reads live).mp member
    rw [noUses] at isUse
    cases isUse
  have registered (b : BindingId) : s.Registers b id ↔ s.bindingOf? id = some b :=
    (or_iff_left (unread b)).symm.trans (describes.records_iff live regular)
  simp only [registered, bindingOf?, describes.occurrences, Lexicon.meaning?, noUses]
  constructor
  · rintro ⟨b, belongs⟩
    obtain ⟨binder, means, -⟩ := Option.bind_eq_some_iff.mp belongs
    obtain ⟨d, isDeclaration, -⟩ := Option.bind_eq_some_iff.mp means
    exact ⟨d, Lexicon.declarationOf?_some isDeclaration⟩
  · rintro ⟨d, member, rfl⟩
    obtain ⟨binder, bound⟩ := Lexicon.exists_binder? member
    obtain ⟨b, found, -⟩ := describes.found _ _ _ bound
    obtain ⟨-, sameOwner, sameName⟩ := Lexicon.binder?_some bound
    refine ⟨b, ?_⟩
    rw [regular.declarationOf?_of_mem member, Option.bind_some, bound, Option.bind_some, sameOwner,
      sameName, found]

end Describes

/-! ### Uses -/

section Uses

variable {d : Declaration} (attached : t.isWithin id root = true)
  (spelled : (t.node id).identifier? = some name)

include attached spelled

theorem exists_use_iff {does : Role → Bool}
    (ofUses : ∀ role, does role = true → role.isUse = true) :
    (∃ use, (t.lexicon root).uses id = some use ∧ does use.role = true ∧
      (t.lexicon root).look? use.sight use.name = some d) ↔
    does (t.role id) = true ∧ (t.lexicon root).look? (t.sight id) name = some d := by
  have uses {use : Use} : (t.lexicon root).uses id = some use ↔
      (t.role id).isUse = true ∧ use = ⟨name, t.role id, t.sight id⟩ := by
    simp only [Tree.lexicon, attached, if_true, Tree.useAt?, spelled, Option.bind_some,
      Option.ite_none_right_eq_some, Option.some.injEq, @eq_comm _ use]
  constructor
  · rintro ⟨use, isUse, acts, means⟩
    obtain ⟨-, rfl⟩ := uses.mp isUse
    exact ⟨acts, means⟩
  · rintro ⟨acts, means⟩
    exact ⟨_, uses.mpr ⟨ofUses _ acts, rfl⟩, acts, means⟩

theorem reads_iff : (t.lexicon root).Reads d id ↔
    (t.role id).reads = true ∧ (t.lexicon root).look? (t.sight id) name = some d := by
  apply exists_use_iff attached spelled
  intro role reads
  rw [Role.isUse, reads, Bool.true_or]

theorem writes_iff :
    (t.lexicon root).Writes d id ↔ ((t.lexicon root).usedAt fun _ => false).Writes d id ∨
      (t.role id).writes = true ∧ (t.lexicon root).look? (t.sight id) name = some d := by
  have again : ((t.lexicon root).usedAt fun _ => false).Writes d id ↔
      ∃ e ∈ (t.lexicon root).declared, e.identifier = id ∧ e ≠ d ∧
        (t.lexicon root).binder? e.owner e.name = some d := by
    apply or_iff_right
    rintro ⟨use, isUse, -⟩
    cases isUse
  rw [again, Lexicon.Writes, or_comm]
  apply or_congr_right
  apply exists_use_iff attached spelled
  intro role writes
  rw [Role.isUse, writes, Bool.or_true]

omit spelled

variable (describes : s.Describes (t.lexicon root)) (linked : t.Linked) (isTop : t.IsTop root)

include describes linked isTop

theorem resolve?_eq_some_iff : s.resolve? t id name = some b ↔
    ∃ d, (t.lexicon root).look? (t.sight id) name = some d ∧ s.find? d.owner d.name = some b := by
  rw [describes.resolve?_eq (linked.regular isTop) linked isTop rfl attached,
    Option.bind_eq_some_iff]

include spelled

theorem mem_references_iff (live : s.IsLive) : id ∈ (s.binding b).references ↔
    (t.role id).reads = true ∧ s.resolve? t id name = some b := by
  rw [describes.mem_references_iff_reads live, resolve?_eq_some_iff attached describes linked isTop]
  simp only [reads_iff attached spelled]
  constructor
  · intro ⟨d, _, found, reads, means⟩
    exact ⟨reads, d, means, found⟩
  · intro ⟨reads, d, means, found⟩
    exact ⟨d, (Lexicon.look?_some means).2, found, reads, means⟩

theorem mem_mutations_iff {declared : Scopes} (live : declared.IsLive)
    (describesDeclared : declared.Describes ((t.lexicon root).usedAt fun _ => false))
    (same : declared.SameDeclared s) : id ∈ (s.binding b).mutations ↔
      id ∈ (declared.binding b).mutations ∨
      (t.role id).writes = true ∧ s.resolve? t id name = some b := by
  rw [describes.mem_mutations_iff_writes (same.isLive live),
    describesDeclared.mem_mutations_iff_writes live,
    resolve?_eq_some_iff attached describes linked isTop]
  simp only [writes_iff attached spelled, same.find?]
  constructor
  · rintro ⟨d, bound, found, again | ⟨writes, means⟩⟩
    · exact .inl ⟨d, bound, found, again⟩
    · exact .inr ⟨writes, d, means, found⟩
  · rintro (⟨d, bound, found, again⟩ | ⟨writes, d, means, found⟩)
    · exact ⟨d, bound, found, .inl again⟩
    · exact ⟨d, (Lexicon.look?_some means).2, found, .inr ⟨writes, means⟩⟩

end Uses

/--
What an identifier without the role of a declaration uses is recorded, and it is recorded for
nothing else. -/
theorem records_iff_of_not_declared {declared : Scopes} (same : declared.SameDeclared s)
    (free : ¬∃ b, declared.Registers b id) (notDeclaration : t.role id ≠ .declaration)
    (references : id ∈ (s.binding b).references ↔
      (t.role id).reads = true ∧ s.resolve? t id name = some b)
    (mutations : id ∈ (s.binding b).mutations ↔
      id ∈ (declared.binding b).mutations ∨
      (t.role id).writes = true ∧ s.resolve? t id name = some b) :
    s.Records b id ↔ t.role id ≠ .label ∧ s.resolve? t id name = some b := by
  have notAgain : id ∉ (declared.binding b).mutations := by
    intro member
    exact free ⟨b, index_of_mem_mutations member, .inr member⟩
  have notIdentifier (inside : b.index < s.bindings.size) : (s.binding b).identifier ≠ id := by
    intro isIdentifier
    exact free ⟨b, same.size ▸ inside, .inl ((same.identifier b).symm.trans isIdentifier)⟩
  have written : s.Registers b id ↔ id ∈ (s.binding b).mutations := by
    constructor
    · intro ⟨inside, belongs⟩
      exact belongs.resolve_left (notIdentifier inside)
    · intro member
      exact ⟨index_of_mem_mutations member, .inr member⟩
  rw [Records, written, mutations, references, or_iff_right notAgain, ← or_and_right]
  apply and_congr_left
  intro resolved
  cases role : t.role id <;> simp_all [Role.reads, Role.writes]

/-- In a program with its patterns in place an identifier is registered, as what declares a binding
or as what declares it once more, if and only if it has the role of a declaration. What has another
role is recorded for the binding that its name is resolved to, among what reads it or what writes it
as the role has it, unless it is a label. No identifier is recorded for two bindings. -/
theorem classifies (linked : t.Linked) (isTop : t.IsTop root) {body : List NodeId}
    (program : t.node root = .program body) (wellPlaced : t.WellPlaced root) :
    ∃ s, ofTree t root = .ok s ∧ s.bindings.size = (declarations t root).bindings.size ∧
      (∀ b, (s.binding b).identifier = ((declarations t root).binding b).identifier) ∧
      ∀ id name, t.isWithin id root = true → (t.node id).identifier? = some name →
        (t.role id = .declaration ↔ ∃ b, (declarations t root).Registers b id) ∧
        (∀ b, id ∈ (s.binding b).references ↔
          (t.role id).reads = true ∧ s.resolve? t id name = some b) ∧
        (∀ b, id ∈ (s.binding b).mutations ↔
          id ∈ ((declarations t root).binding b).mutations ∨
            (t.role id).writes = true ∧ s.resolve? t id name = some b) ∧
        (t.role id = .declaration → ∀ b, s.Records b id ↔ (declarations t root).Registers b id) ∧
        (t.role id ≠ .declaration →
          ∀ b, s.Records b id ↔ t.role id ≠ .label ∧ s.resolve? t id name = some b) ∧
        (∀ b, s.Records b id ↔ s.bindingOf? id = some b) ∧
        ∀ b c, s.Records b id → s.Records c id → b = c := by
  have opens : t.scopeKind? root = some .program := by rw [Tree.scopeKind?, program]
  have made :
      ofTree t root = .ok ((t.descendants root).foldl (attachUse t) (declarations t root)) := by
    rw [ofTree, opens]
    rfl
  have describes := describes_ofTree linked isTop made
  have same := sameDeclared_attachUses (declarations t root) t (t.descendants root)
  generalize (t.descendants root).foldl (attachUse t) (declarations t root) =
    s at made describes same
  have live : s.IsLive := same.isLive (isLive_declarations t root)
  have regular := linked.regular isTop
  have describesDeclared : (declarations t root).Describes _ := describes_declareWithin linked isTop
  refine ⟨s, made, same.size, same.identifier, fun id name attached spelled => ?_⟩
  have declared : t.role id = .declaration ↔ ∃ b, (declarations t root).Registers b id :=
    (wellPlaced.role_eq_declaration_iff linked isTop program attached spelled).trans
      (describesDeclared.exists_registers_iff (isLive_declarations t root) (regular.usedAt _)
        fun _ => rfl).symm
  have references (b : BindingId) := mem_references_iff (b := b) attached spelled describes
    linked isTop live
  have mutations (b : BindingId) := mem_mutations_iff (b := b) attached spelled
    describes linked isTop (isLive_declarations t root) describesDeclared same
  have records (b : BindingId) : s.Records b id ↔ s.bindingOf? id = some b :=
    describes.records_iff live regular
  refine ⟨declared, references, mutations, ?_, ?_, records, ?_⟩
  · intro role b
    simp [Records, Registers, references, mutations, role, Role.reads, Role.writes, same.size,
      same.identifier]
  · intro notDeclaration b
    exact records_iff_of_not_declared same (mt declared.mpr notDeclaration) notDeclaration
      (references b) (mutations b)
  · intro b c first second
    rw [records] at first second
    exact Option.some.inj (first.symm.trans second)

/-- In the program `var [a, ...b] = c; function f([x = a]) { [b] = x; }` the patterns of the
declarator and of the parameter declare `b` and `x`, and the pattern that is assigned to writes the
declared `b`. -/
theorem exists_classifies : ∃ (t : Tree) (s : Scopes), t.Linked ∧ t.IsTop ⟨19⟩ ∧ t.WellPlaced ⟨19⟩ ∧
    ofTree t ⟨19⟩ = .ok s ∧ t.role ⟨1⟩ = .declaration ∧ t.role ⟨8⟩ = .declaration ∧
      t.role ⟨12⟩ = .mutation ∧
      (∃ b, (declarations t ⟨19⟩).Registers b ⟨8⟩) ∧
      (¬∃ b, (declarations t ⟨19⟩).Registers b ⟨12⟩) ∧
      ∃ b, s.Records b ⟨1⟩ ∧ ⟨12⟩ ∈ (s.binding b).mutations ∧ ∀ c, s.Records c ⟨12⟩ → c = b := by
  let t : Tree := ⟨#[⟨.identifier "a", some ⟨3⟩⟩, ⟨.identifier "b", some ⟨2⟩⟩,
    ⟨.restElement ⟨1⟩, some ⟨3⟩⟩, ⟨.arrayPattern [⟨0⟩, ⟨2⟩], some ⟨5⟩⟩, ⟨.identifier "c", some ⟨5⟩⟩,
    ⟨.variableDeclarator ⟨3⟩ (some ⟨4⟩), some ⟨6⟩⟩, ⟨.variableDeclaration .var [⟨5⟩], some ⟨19⟩⟩,
    ⟨.identifier "f", some ⟨18⟩⟩, ⟨.identifier "x", some ⟨10⟩⟩, ⟨.identifier "a", some ⟨10⟩⟩,
    ⟨.assignmentPattern ⟨8⟩ ⟨9⟩, some ⟨11⟩⟩, ⟨.arrayPattern [⟨10⟩], some ⟨18⟩⟩,
    ⟨.identifier "b", some ⟨13⟩⟩, ⟨.arrayPattern [⟨12⟩], some ⟨15⟩⟩, ⟨.identifier "x", some ⟨15⟩⟩,
    ⟨.assignment .assign ⟨13⟩ ⟨14⟩, some ⟨16⟩⟩, ⟨.expressionStatement ⟨15⟩, some ⟨17⟩⟩,
    ⟨.block [⟨16⟩], some ⟨18⟩⟩, ⟨.function ⟨.declaration, some ⟨7⟩, [⟨11⟩], ⟨17⟩, false, false⟩,
      some ⟨19⟩⟩, ⟨.program [⟨6⟩, ⟨18⟩], none⟩]⟩
  have linked : t.Linked := Tree.linked_of_checks (by decide)
  have isTop : t.IsTop ⟨19⟩ := ⟨by decide, rfl⟩
  have wellPlaced : t.WellPlaced ⟨19⟩ := Tree.wellPlaced_of_placesWell (by decide)
  obtain ⟨s, made, -, -, each⟩ := classifies linked isTop rfl wellPlaced
  have first : t.role ⟨1⟩ = .declaration := by decide
  have parameter : t.role ⟨8⟩ = .declaration := by decide
  have write : t.role ⟨12⟩ = .mutation := by decide
  have describes := describes_ofTree linked isTop made
  have binder : (t.lexicon ⟨19⟩).binder? ⟨19⟩ "b" = some ⟨⟨19⟩, "b", .var, ⟨5⟩, ⟨1⟩⟩ := by decide
  have means : (t.lexicon ⟨19⟩).meaning? ⟨1⟩ = some ⟨⟨19⟩, "b", .var, ⟨5⟩, ⟨1⟩⟩ := by decide
  have sees : (t.lexicon ⟨19⟩).look? (t.sight ⟨12⟩) "b" = some ⟨⟨19⟩, "b", .var, ⟨5⟩, ⟨1⟩⟩ := by
    decide
  obtain ⟨b, found, -⟩ := describes.found _ _ _ binder
  have attached : t.isWithin ⟨12⟩ ⟨19⟩ = true := by decide
  have resolved : s.resolve? t ⟨12⟩ "b" = some b :=
    (resolve?_eq_some_iff attached describes linked isTop).mpr ⟨_, sees, found⟩
  obtain ⟨-, -, -, -, -, firstRecords, -⟩ := each ⟨1⟩ "b" (by decide) rfl
  obtain ⟨parameterRole, -⟩ := each ⟨8⟩ "x" (by decide) rfl
  obtain ⟨writeRole, -, writes, -, -, writeRecords, unique⟩ := each ⟨12⟩ "b" attached rfl
  have written : ⟨12⟩ ∈ (s.binding b).mutations :=
    (writes b).mpr (.inr ⟨by rw [write]; rfl, resolved⟩)
  refine ⟨t, s, linked, isTop, wellPlaced, made, first, parameter, write,
    parameterRole.mp parameter, ?_, b, ?_, written, ?_⟩
  · rw [← writeRole, write]
    decide
  · rw [firstRecords, bindingOf?, describes.occurrences, means]
    exact found
  · intro c recorded
    exact unique c b recorded (.inl ⟨index_of_mem_mutations written, .inr written⟩)

end Scopes

end Unravel
