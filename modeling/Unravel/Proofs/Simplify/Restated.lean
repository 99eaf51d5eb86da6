import Unravel.Proofs.Simplify.Image
import Unravel.Proofs.Simplify.Planned
import Unravel.Proofs.Tree.Order

/-!
Functions that are stated once more, as function expressions without a name (`Tree.Restated`). The
parts of such a function stand in the new one as they stood in the old one (`Tree.Hosted`), so a
name that was looked up in vain in the scopes of the new function has been looked up in vain in
those of the old one (`Tree.Restated.isWithin_owner`).
-/

namespace Unravel.Tree

variable {t after : Tree} {outer outer' root top top' id a b copy owner body : NodeId}
  {params : List NodeId} {f f' : NodeId → NodeId} {name : String} {part : Part}
  {g : Function NodeId} {d : Declaration}

namespace Transplanted

variable (moved : t.Transplanted after root f) (linked : t.Linked) (afterLinked : after.Linked)

include moved linked

omit linked in
theorem identifier? (within : t.isWithin id root = true) :
    (after.node (f id)).identifier? = (t.node id).identifier? := by
  rw [moved.node within, ← Node.identifier?_tag, Node.tag_map, Node.identifier?_tag]

theorem congr (same : ∀ {id}, t.isWithin id root = true → f' id = f id) :
    t.Transplanted after root f' where
  node {id} within := by
    rw [same within, moved.node within]
    refine Node.map_congr_of_children fun child member => ?_
    have held := linked.mem_children.mp member
    exact (same (linked.isWithin_trans (linked.isWithin_of_parent held) within)).symm
  injective {a b} first second
    equal := moved.injective first second (by rwa [← same first, ← same second])

theorem below (within : t.isWithin a root = true) : t.Transplanted after a f where
  node inside := moved.node (linked.isWithin_trans inside within)
  injective first
    second := moved.injective (linked.isWithin_trans first within)
      (linked.isWithin_trans second within)

include afterLinked

/-- In the part the nodes lie within each other as they did. -/
theorem isWithin_eq (first : t.isWithin a root = true) (second : t.isWithin b root = true) :
    after.isWithin (f a) (f b) = t.isWithin a b := by
  rw [Bool.eq_iff_iff]
  constructor
  · intro inside
    induction a using linked.induction with
    | step a induction =>
      by_cases same : f a = f b
      · rw [moved.injective first second same, isWithin_self]
      by_cases isRoot : a = root
      · subst isRoot
        exact absurd
          (afterLinked.isWithin_antisymm inside (moved.isWithin linked afterLinked second)) same
      · obtain ⟨parent, held, above⟩ := linked.exists_parent_of_isWithin first isRoot
        rw [afterLinked.isWithin_parent (moved.parent? linked afterLinked first isRoot held)
          same] at inside
        exact linked.isWithin_trans (linked.isWithin_of_parent held)
          (induction parent held above inside)
  · intro inside
    exact (moved.below linked second).isWithin linked afterLinked inside

/-- Whatever stands in the part stands there for something. -/
theorem exists_original (within : after.isWithin copy (f root) = true) :
    ∃ id, t.isWithin id root = true ∧ f id = copy := by
  induction copy using afterLinked.induction with
  | step copy induction =>
    by_cases same : copy = f root
    · exact ⟨root, isWithin_self, same.symm⟩
    · obtain ⟨parent, held, above⟩ := afterLinked.exists_parent_of_isWithin within same
      obtain ⟨id, inside, rfl⟩ := induction parent held above
      have isChild := afterLinked.mem_children.mpr held
      rw [moved.node inside, Node.children_map, List.mem_map] at isChild
      obtain ⟨child, member, rfl⟩ := isChild
      exact ⟨child,
        linked.isWithin_trans (linked.isWithin_of_parent (linked.mem_children.mp member)) inside,
        rfl⟩

end Transplanted

/-! ### Parts of functions -/

structure Hosted (t after : Tree) (outer root : NodeId) (f : NodeId → NodeId) : Prop
    extends t.Transplanted after root f where
  held : t.parent? root = some outer
  heldAfter : after.parent? (f root) = some (f outer)
  function : ∃ g, t.node outer = .function g
  functionAfter : ∃ g, after.node (f outer) = .function g
  binding : (after.holds (f outer) (f root) .name || after.holds (f outer) (f root) .params) =
    (t.holds outer root .name || t.holds outer root .params)

namespace Hosted

variable (hosted : t.Hosted after outer root f) (linked : t.Linked) (afterLinked : after.Linked)

include hosted linked

theorem isWithin_outer (within : t.isWithin id root = true) : t.isWithin id outer = true :=
  linked.isWithin_trans within (linked.isWithin_of_parent hosted.held)

theorem isWithin_or_eq (within : t.isWithin id root = true) (below : t.isWithin id owner = true)
    (inside : t.isWithin owner outer = true) : t.isWithin owner root = true ∨ owner = outer := by
  rcases linked.isWithin_linear below within with further | around
  · exact .inl further
  · by_cases same : root = owner
    · exact .inl (same ▸ isWithin_self)
    · rw [linked.isWithin_parent hosted.held same] at around
      exact .inr (linked.isWithin_antisymm inside around)

include afterLinked

theorem exists_parent (within : t.isWithin id root = true) : ∃ parent, t.parent? id = some parent ∧
    after.parent? (f id) = some (f parent) ∧ (t.isWithin parent root = true ∨ parent = outer) := by
  by_cases isRoot : id = root
  · subst isRoot
    exact ⟨outer, hosted.held, hosted.heldAfter, .inr rfl⟩
  · obtain ⟨parent, held, above⟩ := linked.exists_parent_of_isWithin within isRoot
    exact ⟨parent, held, hosted.parent? linked afterLinked within isRoot held, .inl above⟩

theorem exists_ancestors (within : t.isWithin id root = true) : ∃ inner,
    id :: t.ancestors id = inner ++ outer :: t.ancestors outer ∧
      f id :: after.ancestors (f id) = inner.map f ++ f outer :: after.ancestors (f outer) ∧
        ∀ place ∈ inner, t.isWithin place root = true := by
  induction id using linked.induction with
  | step id induction =>
    obtain ⟨parent, held, heldAfter, place⟩ := hosted.exists_parent linked afterLinked within
    rw [linked.ancestors_of_parent held, afterLinked.ancestors_of_parent heldAfter]
    rcases place with above | rfl
    · obtain ⟨inner, before, behind, inside⟩ := induction parent held above
      exact ⟨id :: inner, by rw [before]; rfl, by rw [behind]; rfl,
        List.forall_mem_cons.mpr ⟨within, inside⟩⟩
    · exact ⟨[id], rfl, rfl, List.forall_mem_singleton.mpr within⟩

/-- The part and the function have the scopes that they had. -/
theorem scopeKind? (own : t.isWithin id root = true ∨ id = outer) :
    after.scopeKind? (f id) = t.scopeKind? id := by
  obtain ⟨g, shape⟩ := hosted.function
  obtain ⟨g', shapeAfter⟩ := hosted.functionAfter
  rcases own with within | rfl
  · obtain ⟨parent, held, heldAfter, place⟩ := hosted.exists_parent linked afterLinked within
    have isBody : (after.node (f parent)).isFunction = (t.node parent).isFunction := by
      rcases place with above | rfl
      · rw [hosted.node above, ← Node.isFunction_tag, Node.tag_map, Node.isFunction_tag]
      · rw [shape, shapeAfter]
        rfl
    rw [Alike.scopeKind?_eq, Alike.scopeKind?_eq, hosted.node within, Node.tag_map, held, heldAfter,
      Option.any_some, Option.any_some, isBody]
  · rw [Tree.scopeKind?, Tree.scopeKind?, shape, shapeAfter]

omit linked afterLinked in
theorem holds_eq (parentWithin : t.isWithin parent root = true) (held : t.parent? id = some parent)
    (part : Part) (linked : t.Linked) :
    after.holds (f parent) (f id) part = t.holds parent id part := by
  have below {child : NodeId} (isPart : child ∈ (t.node parent).part part) :
      t.isWithin child root = true :=
    linked.isWithin_trans (linked.isWithin_of_parent (linked.parent?_of_mem_part isPart))
      parentWithin
  rw [holds, holds, hosted.node parentWithin, Node.part_map, decide_eq_decide, List.mem_map]
  constructor
  · rintro ⟨child, isPart, same⟩
    rwa [← hosted.injective (below isPart)
      (linked.isWithin_trans (linked.isWithin_of_parent held) parentWithin) same]
  · exact fun isPart => ⟨id, isPart, rfl⟩

theorem patternRole_eq (within : t.isWithin id root = true) :
    after.patternRole (f id) (after.ancestors (f id)) = t.patternRole id (t.ancestors id) := by
  induction id using linked.induction with
  | step id induction =>
    obtain ⟨parent, held, heldAfter, place⟩ := hosted.exists_parent linked afterLinked within
    rw [linked.ancestors_of_parent held, afterLinked.ancestors_of_parent heldAfter,
      patternRole_cons, patternRole_cons]
    rcases place with above | rfl
    · rw [induction parent held above, hosted.node above, Node.tag_map,
        funext fun part => hosted.holds_eq above held part linked]
    · -- A function binds the names of its parameters.
      obtain ⟨g, shape⟩ := hosted.function
      obtain ⟨g', shapeAfter⟩ := hosted.functionAfter
      rw [shape, shapeAfter]
      rfl

theorem role_eq (within : t.isWithin id root = true) : after.role (f id) = t.role id := by
  by_cases isRoot : id = root
  · subst isRoot
    rw [role_of_parent hosted.held, role_of_parent hosted.heldAfter]
    obtain ⟨g, shape⟩ := hosted.function
    obtain ⟨g', shapeAfter⟩ := hosted.functionAfter
    simp only [shape, shapeAfter, Node.tag, roleIn, hosted.binding]
  · obtain ⟨parent, held, above⟩ := linked.exists_parent_of_isWithin within isRoot
    rw [role_of_parent held, role_of_parent (hosted.parent? linked afterLinked within isRoot held),
      hosted.patternRole_eq linked afterLinked above, hosted.node above, Node.tag_map,
      funext fun part => hosted.holds_eq above held part linked]

theorem opens (own : t.isWithin id root = true ∨ id = outer) : after.opens (f id) = t.opens id := by
  rw [Tree.opens, hosted.scopeKind? linked afterLinked own, Tree.opens]

theorem find?_eq {wanted wanted' : NodeId → Bool} (within : t.isWithin id root = true)
    (same : ∀ {id}, t.isWithin id root = true ∨ id = outer → wanted' (f id) = wanted id)
    (inside : t.isWithin owner outer = true)
    (found : (id :: t.ancestors id).find? wanted = some owner) :
    (f id :: after.ancestors (f id)).find? wanted' = some (f owner) := by
  obtain ⟨inner, before, behind, below⟩ := hosted.exists_ancestors linked afterLinked within
  rw [before, List.append_cons, List.find?_append] at found
  have mapped : inner.map f ++ f outer :: after.ancestors (f outer) =
      (inner ++ [outer]).map f ++ after.ancestors (f outer) := by simp
  rw [behind, mapped, List.find?_append]
  have agree : (inner ++ [outer]).find? (wanted' ∘ f) = (inner ++ [outer]).find? wanted := by
    rw [← List.head?_filter, ← List.head?_filter]
    refine congrArg List.head? (List.filter_congr fun place member => same ?_)
    rcases List.mem_append.mp member with member | member
    · exact .inl (below place member)
    · exact .inr (List.mem_singleton.mp member)
  rw [List.find?_map, agree]
  cases here : (inner ++ [outer]).find? wanted with
  | some place =>
    rw [here, Option.some_or, Option.some.injEq] at found
    rw [found]
    rfl
  | none =>
    -- Nothing around the function lies in it.
    rw [here, Option.none_or] at found
    have around := List.mem_of_find?_eq_some found
    have same := linked.isWithin_antisymm inside (isWithin_iff.mpr (.inr around))
    exact absurd (same ▸ around) (linked.notMem_ancestors outer)

/-! ### What is declared in a part -/

theorem allocated_copy (within : t.isWithin id root = true) :
    t.Allocated id ∧ after.Allocated (f id) := by
  obtain ⟨parent, held, heldAfter, -⟩ := hosted.exists_parent linked afterLinked within
  exact ⟨allocated_of_parent? held, allocated_of_parent? heldAfter⟩

theorem patternNames_eq (within : t.isWithin id root = true) :
    after.patternNames (f id) = (t.patternNames id).map f := by
  obtain ⟨allocated, -⟩ := hosted.allocated_copy linked afterLinked within
  induction id, allocated using linked.induction_children with
  | step id allocated induction =>
    have same : (after.node (f id)).isIdentifier = (t.node id).isIdentifier := by
      rw [Node.isIdentifier, hosted.identifier? within, Node.isIdentifier]
    rw [afterLinked.patternNames_eq (hosted.allocated_copy linked afterLinked within).2,
      linked.patternNames_eq allocated, same]
    split
    · rfl
    · rw [hosted.node within, Node.part_map, List.map_flatMap, List.flatMap_map, List.flatMap_def,
        List.flatMap_def]
      congr 1
      apply List.map_congr_left
      intro child isPart
      have held := linked.parent?_of_mem_part isPart
      exact induction child held (linked.isWithin_trans (linked.isWithin_of_parent held) within)

theorem namesIn_eq (within : t.isWithin id root = true) (part : Part) :
    after.namesIn (f id) part = (t.namesIn id part).map f := by
  rw [namesIn, namesIn, hosted.node within, Node.part_map, List.map_flatMap, List.flatMap_map,
    List.flatMap_def, List.flatMap_def]
  congr 1
  apply List.map_congr_left
  intro child isPart
  have held := linked.parent?_of_mem_part isPart
  exact hosted.patternNames_eq linked afterLinked
    (linked.isWithin_trans (linked.isWithin_of_parent held) within)

omit linked afterLinked in
theorem spellings_map {ids : List NodeId} (inside : ∀ id ∈ ids, t.isWithin id root = true) :
    after.spellings (ids.map f) = t.spellings ids := by
  rw [spellings, spellings, List.map_map]
  exact List.map_congr_left fun id member => hosted.identifier? (inside id member)

theorem spellings_namesIn (within : t.isWithin id root = true) (part : Part) :
    after.spellings (after.namesIn (f id) part) = t.spellings (t.namesIn id part) := by
  rw [hosted.namesIn_eq linked afterLinked within]
  refine hosted.spellings_map fun name member => ?_
  obtain ⟨pattern, isPart, below⟩ := linked.isWithin_of_mem_namesIn member
  exact linked.isWithin_trans below
    (linked.isWithin_trans (linked.isWithin_of_parent (linked.parent?_of_mem_part isPart)) within)

theorem head?_scopesFrom (within : t.isWithin id root = true)
    (inside : t.isWithin owner outer = true) (nearest : (t.scopesFrom id).head? = some owner) :
    (after.scopesFrom (f id)).head? = some (f owner) := by
  rw [scopesFrom, List.head?_filter] at nearest ⊢
  exact hosted.find?_eq linked afterLinked within (fun own => hosted.opens linked afterLinked own)
    inside nearest

theorem head?_scopesAround (within : t.isWithin id root = true)
    (inside : t.isWithin owner outer = true) (nearest : (t.scopesAround id).head? = some owner) :
    (after.scopesAround (f id)).head? = some (f owner) := by
  obtain ⟨parent, held, heldAfter, place⟩ := hosted.exists_parent linked afterLinked within
  rw [linked.scopesAround_of_parent held] at nearest
  rw [afterLinked.scopesAround_of_parent heldAfter]
  rcases place with above | rfl
  · exact hosted.head?_scopesFrom linked afterLinked above inside nearest
  · obtain ⟨g, shape⟩ := hosted.function
    have function := opens_of_function shape
    rw [scopesFrom_of_opens function, List.head?_cons, Option.some.injEq] at nearest
    rw [scopesFrom_of_opens ((hosted.opens linked afterLinked (.inr rfl)).trans function),
      ← nearest, List.head?_cons]

theorem hoistTarget? (within : t.isWithin id root = true) (inside : t.isWithin owner outer = true)
    (target : t.hoistTarget? (t.scopesFrom id) = some owner) :
    after.hoistTarget? (after.scopesFrom (f id)) = some (f owner) := by
  have kind : t.scopeKind? outer = some .function := by
    obtain ⟨g, shape⟩ := hosted.function
    rw [Tree.scopeKind?, shape]
  have below : after.isWithin (f id) (f outer) = true :=
    afterLinked.isWithin_trans (hosted.isWithin linked afterLinked within)
      (afterLinked.isWithin_of_parent hosted.heldAfter)
  rw [linked.hoistTarget?_eq (hosted.isWithin_outer linked within) kind] at target
  rw [afterLinked.hoistTarget?_eq below
    ((hosted.scopeKind? linked afterLinked (.inr rfl)).trans kind)]
  exact hosted.find?_eq linked afterLinked within (fun own => by
    rw [hosted.opens linked afterLinked own, hosted.scopeKind? linked afterLinked own]) inside
      target

theorem declaresAt (within : t.isWithin id root = true) (inside : t.isWithin owner outer = true)
    (declares : t.DeclaresAt id owner name) : after.DeclaresAt (f id) (f owner) name := by
  have tag : (after.node (f id)).tag = (t.node id).tag := by rw [hosted.node within, Node.tag_map]
  have parts (part : Part) : (after.node (f id)).part part = ((t.node id).part part).map f := by
    rw [hosted.node within, Node.part_map]
  have nearest := hosted.head?_scopesFrom linked afterLinked within inside
  have around := hosted.head?_scopesAround linked afterLinked within inside
  have below {child : NodeId} {part : Part} (held : child ∈ (t.node id).part part) :
      t.isWithin child root = true :=
    linked.isWithin_trans (linked.isWithin_of_parent (linked.parent?_of_mem_part held)) within
  have names : after.spellings ((after.node (f id)).part .name) =
      t.spellings ((t.node id).part .name) := by
    rw [parts]
    exact hosted.spellings_map fun name held => below held
  unfold DeclaresAt declarationsAt at declares ⊢
  rw [tag]
  split at declares
  case h_1 kind _ _ =>
    rw [exists_mem_flatMap_iff] at declares ⊢
    obtain ⟨declarator, held, declares⟩ := declares
    rw [exists_declaredNames_iff] at declares
    refine ⟨f declarator, by rw [parts]; exact List.mem_map_of_mem held, ?_⟩
    rw [exists_declaredNames_iff, hosted.spellings_namesIn linked afterLinked (below held)]
    refine declares.imp_left fun target => ?_
    split at target
    · rename_i isVar
      rw [if_pos isVar]
      exact hosted.hoistTarget? linked afterLinked within inside target
    · rename_i notVar
      rw [if_neg notVar]
      exact nearest target
  case h_2 g _ =>
    have sameParams := hosted.spellings_namesIn linked afterLinked within .params
    simp only [List.mem_append, or_and_right, exists_or] at declares ⊢
    refine declares.imp (fun ofName => ?_) fun ofParams => ?_
    · split at ofName
      · rename_i isDeclaration
        rw [exists_declaredNames_iff] at ofName
        rw [if_pos isDeclaration, exists_declaredNames_iff, names]
        exact ofName.imp_left around
      · rename_i isExpression
        rw [exists_declaredNames_iff, Option.some.injEq] at ofName
        rw [if_neg isExpression, exists_declaredNames_iff, Option.some.injEq, names]
        exact ofName.imp_left (congrArg f)
    · rw [exists_declaredNames_iff, Option.some.injEq] at ofParams ⊢
      rw [sameParams]
      exact ofParams.imp_left (congrArg f)
  case h_3 c _ =>
    split at declares
    · rename_i isDeclaration
      rw [exists_declaredNames_iff] at declares
      rw [if_pos isDeclaration, exists_declaredNames_iff, names]
      exact declares.imp_left nearest
    · obtain ⟨_, member, -⟩ := declares
      cases member
  case h_4 =>
    obtain ⟨_, member, -⟩ := declares
    cases member

/-- What a node of the part sees of the function it sees from its new place. -/
theorem mem_beyond (within : t.isWithin id root = true) (closed : t.opens id = false)
    (inside : t.isWithin owner outer = true) (member : owner ∈ t.beyond id) :
    f owner ∈ after.beyond (f id) := by
  rw [linked.mem_beyond_iff closed] at member
  rw [afterLinked.mem_beyond_iff ((hosted.opens linked afterLinked (.inl within)).trans closed)]
  obtain ⟨isOpen, region, around, below⟩ := member
  have upTo {place : NodeId} (own : t.isWithin place root = true ∨ place = outer) :
      after.isWithin (f place) (f outer) = true := by
    rcases own with within | rfl
    · exact afterLinked.isWithin_trans (hosted.isWithin linked afterLinked within)
        (afterLinked.isWithin_of_parent hosted.heldAfter)
    · exact isWithin_self
  have inOuter := linked.isWithin_trans below inside
  have ownRegion := hosted.isWithin_or_eq linked within around.within inOuter
  have ownOwner := hosted.isWithin_or_eq linked within (linked.isWithin_trans around.within below)
    inside
  refine ⟨(hosted.opens linked afterLinked ownOwner).trans isOpen, f region, ⟨?_, ?_, ?_⟩, ?_⟩
  · exact (hosted.opens linked afterLinked ownRegion).trans around.opens
  · rcases ownRegion with inRoot | rfl
    · rw [hosted.isWithin_eq linked afterLinked within inRoot, around.within]
    · exact upTo (.inl within)
  · intro discriminant isHeld
    rcases ownRegion with inRoot | rfl
    · rw [hosted.node inRoot, Node.part_map, List.mem_map] at isHeld
      obtain ⟨place, isPart, rfl⟩ := isHeld
      have inside :=
        linked.isWithin_trans (linked.isWithin_of_parent (linked.parent?_of_mem_part isPart)) inRoot
      rw [hosted.isWithin_eq linked afterLinked within inside, around.apart place isPart]
    · obtain ⟨g', shapeAfter⟩ := hosted.functionAfter
      rw [shapeAfter] at isHeld
      cases isHeld
  · rcases ownOwner with inRoot | rfl
    · have regionInside := linked.isWithin_trans below inRoot
      rw [hosted.isWithin_eq linked afterLinked regionInside inRoot, below]
    · exact upTo ownRegion

end Hosted

/-! ### Whole functions -/

/-- A function is stated once more, as a function expression without a name. -/
structure Restated (t after : Tree) (g : Function NodeId) (outer outer' : NodeId)
    (params : List NodeId) (body : NodeId) : Prop where
  shape : t.node outer = .function g
  isUnnamed : g.kind = .declaration ∨ g.name = none
  label : ∀ name, g.name = some name → (t.node name).isIdentifier = true
  shapeAfter :
    after.node outer' = .function ⟨.expression, none, params, body, g.isGenerator, g.isAsync⟩
  params : List.Forall₂ (fun param copy => ∃ f, f param = copy ∧ t.Transplanted after param f)
    g.params params
  body : ∃ f, f g.body = body ∧ t.Transplanted after g.body f

/--
What a function declares: its name, which that of a declaration is for the scope around it, and its
parameters. -/
theorem declaresAt_of_function (shape : t.node id = .function g) : t.DeclaresAt id owner name ↔
    (if g.kind = .declaration then (t.scopesAround id).head? = some owner else id = owner) ∧
        some name ∈ t.spellings g.name.toList ∨
      id = owner ∧ some name ∈ t.spellings (t.namesIn id .params) := by
  unfold DeclaresAt declarationsAt
  have isName : (t.node id).part .name = g.name.toList := by
    rw [shape]
    rfl
  rw [isName, shape]
  simp only [Node.tag, List.mem_append, or_and_right, exists_or]
  refine or_congr ?_ ?_
  · split <;> simp only [exists_declaredNames_iff, Option.some.injEq]
  · rw [exists_declaredNames_iff, Option.some.injEq]

namespace Restated

variable (restated : t.Restated after g outer outer' params body) (linked : t.Linked)
  (afterLinked : after.Linked)

include restated

theorem exists_copy (member : root ∈ g.params ++ [g.body]) : ∃ f, t.Transplanted after root f ∧
    (root ∈ g.params ∧ f root ∈ params ∨ root = g.body ∧ f root = body) := by
  rcases List.mem_append.mp member with isParam | isBody
  · obtain ⟨copy, isPart, f, rfl, moved⟩ := exists_of_forall₂ restated.params isParam
    exact ⟨f, moved, .inl ⟨isParam, isPart⟩⟩
  · obtain rfl := List.mem_singleton.mp isBody
    obtain ⟨f, isBody, moved⟩ := restated.body
    exact ⟨f, moved, .inr ⟨rfl, isBody⟩⟩

theorem exists_source (member : copy ∈ params ++ [body]) :
    ∃ root f, f root = copy ∧ t.Transplanted after root f ∧
      (root ∈ g.params ∧ f root ∈ params ∨ root = g.body ∧ f root = body) := by
  rcases List.mem_append.mp member with isParam | isBody
  · obtain ⟨root, isPart, f, rfl, moved⟩ := exists_of_forall₂ restated.params.flip isParam
    exact ⟨root, f, rfl, moved, .inl ⟨isPart, isParam⟩⟩
  · obtain rfl := List.mem_singleton.mp isBody
    obtain ⟨f, isBody, moved⟩ := restated.body
    exact ⟨g.body, f, isBody, moved, .inr ⟨rfl, isBody⟩⟩

include linked afterLinked

theorem exists_hosted (moved : t.Transplanted after root f)
    (place : root ∈ g.params ∧ f root ∈ params ∨ root = g.body ∧ f root = body) :
    ∃ f', f' root = f root ∧ f' outer = outer' ∧ t.Hosted after outer root f' := by
  have held : t.parent? root = some outer := by
    rw [← linked.mem_children, restated.shape]
    simp only [Node.children, List.mem_append, List.mem_singleton]
    tauto
  have heldAfter : after.parent? (f root) = some outer' := by
    rw [← afterLinked.mem_children, restated.shapeAfter]
    simp only [Node.children, Option.toList_none, List.nil_append, List.mem_append,
      List.mem_singleton]
    tauto
  have binding : (after.holds outer' (f root) .name || after.holds outer' (f root) .params) =
      (t.holds outer root .name || t.holds outer root .params) := by
    -- The parameters, the body and the name of a function are different nodes.
    have distinct := linked.nodup_children outer
    have distinctAfter := afterLinked.nodup_children outer'
    rw [restated.shape, Node.children, List.nodup_append] at distinct
    rw [restated.shapeAfter, Node.children, Option.toList_none, List.nil_append, List.nodup_append]
      at distinctAfter
    rw [holds, holds, holds, holds, restated.shape, restated.shapeAfter]
    rcases place with ⟨isParam, isParamAfter⟩ | ⟨rfl, isBody⟩
    · simp [Node.part, isParam, isParamAfter]
    · have apart := fun other member => distinct.2.2 other member g.body (List.mem_singleton_self _)
      have apartAfter :=
        fun other member => distinctAfter.2.2 other member body (List.mem_singleton_self _)
      have notName : g.body ∉ g.name.toList :=
        fun isName => apart _ (List.mem_append_left _ isName) rfl
      have notParam : g.body ∉ g.params :=
        fun isParam => apart _ (List.mem_append_right _ isParam) rfl
      have notParamAfter : f g.body ∉ params := fun isParam => apartAfter _ isParam isBody
      simp [Node.part, notName, notParam, notParamAfter]
  have apart {id : NodeId} (within : t.isWithin id root = true) : id ≠ outer := by
    rintro rfl
    have cycle := linked.isWithin_antisymm within (linked.isWithin_of_parent held)
    exact linked.parent?_ne_self _ (cycle ▸ held)
  let f' : NodeId → NodeId := Function.update f outer outer'
  have same {id : NodeId} (within : t.isWithin id root = true) : f' id = f id :=
    Function.update_of_ne (apart within) ..
  have isRoot : f' root = f root := same isWithin_self
  have isOuter : f' outer = outer' := Function.update_self ..
  refine ⟨f', isRoot, isOuter, moved.congr linked same, held, ?_, ?_, ?_, ?_⟩
  · rw [isRoot, isOuter, heldAfter]
  · exact ⟨g, restated.shape⟩
  · exact ⟨_, isOuter ▸ restated.shapeAfter⟩
  · rw [isRoot, isOuter, binding]

theorem exists_hosted_of_mem (member : root ∈ g.params ++ [g.body]) :
    ∃ f, f outer = outer' ∧ t.Hosted after outer root f := by
  obtain ⟨f, moved, place⟩ := restated.exists_copy member
  obtain ⟨f', -, isOuter, hosted⟩ := restated.exists_hosted linked afterLinked moved place
  exact ⟨f', isOuter, hosted⟩

theorem exists_original (member : root ∈ params ++ [body])
    (within : after.isWithin copy root = true) :
    ∃ original f id, f outer = outer' ∧ t.Hosted after outer original f ∧
      t.isWithin id original = true ∧
      f id = copy := by
  obtain ⟨original, f, rfl, moved, place⟩ := restated.exists_source member
  obtain ⟨f', isRoot, isOuter, hosted⟩ := restated.exists_hosted linked afterLinked moved place
  obtain ⟨id, inside, isCopy⟩ := hosted.exists_original linked afterLinked (isRoot ▸ within)
  exact ⟨original, f', id, isOuter, hosted, inside, isCopy⟩

theorem mem_spellings_params (spelled : some name ∈ t.spellings (t.namesIn outer .params)) :
    some name ∈ after.spellings (after.namesIn outer' .params) := by
  rw [spellings, List.mem_map] at spelled ⊢
  obtain ⟨identifier, named, spelled⟩ := spelled
  obtain ⟨param, isParam, named⟩ := List.mem_flatMap.mp named
  rw [restated.shape] at isParam
  obtain ⟨copy, isPart, f, rfl, moved⟩ := exists_of_forall₂ restated.params isParam
  obtain ⟨f', isRoot, -, hosted⟩ := restated.exists_hosted linked afterLinked moved
    (.inl ⟨isParam, isPart⟩)
  have below :=
    linked.isWithin_of_mem_patternNames (hosted.allocated_copy linked afterLinked isWithin_self).1
      named
  refine ⟨f' identifier, List.mem_flatMap.mpr ⟨f param, ?_, ?_⟩,
    (hosted.identifier? below).trans spelled⟩
  · rw [restated.shapeAfter]
    exact isPart
  · rw [← isRoot, hosted.patternNames_eq linked afterLinked isWithin_self]
    exact List.mem_map_of_mem named

theorem exists_declaresAt (declares : t.DeclaresAt id outer name) :
    ∃ copy, after.DeclaresAt copy outer' name := by
  have within : t.isWithin id outer = true := by
    obtain ⟨d, member, rfl, -⟩ := declares
    exact (linked.introduces_of_mem member).owner
  by_cases isOuter : id = outer
  · subst isOuter
    refine ⟨outer', (declaresAt_of_function restated.shapeAfter).mpr (.inr ⟨rfl, ?_⟩)⟩
    refine restated.mem_spellings_params linked afterLinked ?_
    rcases (declaresAt_of_function restated.shape).mp declares with ⟨isOwner, named⟩ | ⟨-, spelled⟩
    · -- The name of a declaration belongs to a scope around it.
      rcases restated.isUnnamed with isDeclaration | isUnnamed
      · rw [if_pos isDeclaration] at isOwner
        exact absurd (mem_scopesAround.mp (List.mem_of_mem_head? isOwner)).1
          (linked.notMem_ancestors id)
      · rw [isUnnamed] at named
        cases named
    · exact spelled
  · obtain ⟨root, isChild, below⟩ := linked.exists_child within isOuter
    rw [restated.shape, Node.children, List.append_assoc, List.mem_append] at isChild
    rcases isChild with isName | isPart
    · -- A name declares nothing.
      rw [Option.mem_toList] at isName
      have isIdentifier := restated.label root isName
      obtain ⟨d, member, -⟩ := declares
      have active := isInert_of_declarationsAt member
      rw [linked.eq_of_isWithin_leaf (children_of_isIdentifier isIdentifier) below] at active
      cases shape : t.node root <;> simp_all [Node.isIdentifier, Node.identifier?, Node.isInert]
    · obtain ⟨f, rfl, hosted⟩ := restated.exists_hosted_of_mem linked afterLinked isPart
      exact ⟨f id, hosted.declaresAt linked afterLinked below isWithin_self declares⟩

theorem isWithin_owner (hosted : t.Hosted after outer root f) (isOuter : f outer = outer')
    (isTop : t.IsTop top) (afterTop : after.IsTop top')
    (attachedAfter : after.isWithin outer' top' = true) (within : t.isWithin id root = true)
    (closed : t.opens id = false) (member : owner ∈ t.beyond id)
    (inside : t.isWithin owner outer = true) (declares : t.Declares top owner name)
    (found : (after.lexicon top').look? (after.beyond (f id)) name = some d) :
    after.isWithin d.owner outer' = true := by
  subst isOuter
  have own :=
    hosted.isWithin_or_eq linked within (isWithin_iff.mpr (.inr (linked.mem_beyond member).1))
      inside
  have upTo : after.isWithin (f owner) (f outer) = true := by
    rcases own with inRoot | rfl
    · exact afterLinked.isWithin_trans (hosted.isWithin linked afterLinked inRoot)
        (afterLinked.isWithin_of_parent hosted.heldAfter)
    · exact isWithin_self
  obtain ⟨e, declared, rfl, rfl⟩ := declares
  obtain ⟨place, -, member'⟩ := (linked.mem_declared isTop).mp declared
  have declaresAt : t.DeclaresAt place e.owner e.name := ⟨e, member', rfl, rfl⟩
  obtain ⟨copy, declaresAfter⟩ : ∃ copy, after.DeclaresAt copy (f e.owner) e.name := by
    rcases own with inRoot | isOuter
    · have below := linked.isWithin_trans (linked.introduces_of_mem member').owner inRoot
      exact ⟨f place, hosted.declaresAt linked afterLinked below inside declaresAt⟩
    · rw [isOuter] at declaresAt ⊢
      exact restated.exists_declaresAt linked afterLinked declaresAt
  have isBound :=
    (afterLinked.isSome_binder?_iff afterTop (afterLinked.isWithin_trans upTo attachedAfter)).mpr
      ⟨copy, declaresAfter⟩
  obtain ⟨-, -, least⟩ := nearest_of_look? (afterLinked.pairwise_beyond _) found
  exact afterLinked.isWithin_trans
    (least (f e.owner) (hosted.mem_beyond linked afterLinked within closed inside member)
      (binder?_isSome.mp isBound)) upTo

end Restated

end Unravel.Tree
