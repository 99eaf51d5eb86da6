import Mathlib.Data.List.TakeWhile
import Unravel.Proofs.Scope.Region
import Unravel.Proofs.Scope.Sealed
import Unravel.Proofs.Simplify.Instance

/-!
Copies of a piece of a tree that may have holes where identifiers were (`Tree.Imaged`), and what
names mean in them. A name that a scope of the piece declares is declared by the image of that
scope, and any other name is looked up in the scopes around the copy (`Tree.Imaged.look?_cases`).
-/

namespace Unravel

theorem Node.Mirrors.mem_part_iff {f : NodeId → NodeId} {before after : Node NodeId}
    {child : NodeId} {part : Part} (mirrors : before.Mirrors f after)
    (distinct : after.children.Nodup) (held : child ∈ before.children) :
    f child ∈ after.part part ↔ child ∈ before.part part := by
  rw [mirrors.part, List.mem_map]
  constructor
  · rintro ⟨other, member, same⟩
    rw [mirrors.children] at distinct
    rwa [← List.inj_on_of_nodup_map distinct (mem_children_of_mem_part member) held same]
  · exact fun member => ⟨child, member, rfl⟩

namespace Tree

/-- The nodes of a piece of a store and what stands in their places in a copy of it. -/
inductive Image (t after : Tree) (root root' : NodeId) : NodeId → NodeId → Prop where
  | root : Image t after root root' root root'
  | child {id copy child : NodeId} (f : NodeId → NodeId) (outer : Image t after root root' id copy)
      (mirrors : (t.node id).Mirrors f (after.node copy)) (held : child ∈ (t.node id).children) :
      Image t after root root' child (f child)

/-- A copy of a sealed piece whose holes are filled with sealed pieces. Only identifiers that read a
variable can have become holes. -/
structure Imaged (t after : Tree) (hole : NodeId → Prop) (root root' : NodeId) : Prop where
  solid : ∀ {id copy}, t.Image after root root' id copy → ¬hole id →
    ∃ f, (t.node id).Mirrors f (after.node copy)
  isUse : ∀ {id}, hole id → (t.node id).isIdentifier = true ∧ (t.role id).reads = true
  isSealed : t.Sealed root
  filled : ∀ {id copy}, t.Image after root root' id copy → hole id → after.Sealed copy

/-- The names that some nodes spell. -/
def spellings (t : Tree) (ids : List NodeId) :
    List (Option String) := ids.map fun id => (t.node id).identifier?

variable {t after : Tree} {root root' outer outer' id copy : NodeId} {hole : NodeId → Prop}
  {name : String}

theorem Linked.parent?_of_mirrors (afterLinked : after.Linked) {f : NodeId → NodeId}
    {child : NodeId} (mirrors : (t.node id).Mirrors f (after.node copy))
    (held : child ∈ (t.node id).children) :
    after.parent? (f child) = some copy := by
  rw [← afterLinked.mem_children, mirrors.children]
  exact List.mem_map_of_mem held

namespace Image

theorem trans (first : t.Image after root root' outer outer')
    (second : t.Image after outer outer' id copy) :
    t.Image after root root' id copy := by
  induction second with
  | root => exact first
  | child f _ mirrors held induction => exact .child f induction mirrors held

variable (image : t.Image after root root' id copy) (linked : t.Linked) (afterLinked : after.Linked)

include image

theorem isWithin (linked : t.Linked) : t.isWithin id root = true := by
  induction image with
  | root => exact isWithin_self
  | child f _ _ held induction =>
    exact linked.isWithin_trans (linked.isWithin_of_parent (linked.mem_children.mp held)) induction

theorem isWithin_copy (afterLinked : after.Linked) : after.isWithin copy root' = true := by
  induction image with
  | root => exact isWithin_self
  | child f _ mirrors held induction =>
    have heldAfter := afterLinked.parent?_of_mirrors mirrors held
    exact afterLinked.isWithin_trans (afterLinked.isWithin_of_parent heldAfter) induction

include linked

theorem split (below : t.isWithin id outer = true) (inside : t.isWithin outer root = true) :
    ∃ outer', t.Image after root root' outer outer' ∧ t.Image after outer outer' id copy := by
  induction image with
  | root =>
    rw [linked.isWithin_antisymm inside below]
    exact ⟨root', .root, .root⟩
  | @child id copy child f image mirrors held induction =>
    by_cases same : child = outer
    · subst same
      exact ⟨f child, .child f image mirrors held, .root⟩
    · rw [linked.isWithin_parent (linked.mem_children.mp held) same] at below
      obtain ⟨outer', above, between⟩ := induction below
      exact ⟨outer', above, .child f between mirrors held⟩

include afterLinked

theorem eq_root_iff : copy = root' ↔ id = root := by
  cases image with
  | root => simp
  | @child id copy child f outer mirrors held =>
    have above := linked.mem_children.mp held
    have heldAfter := afterLinked.parent?_of_mirrors mirrors held
    constructor
    · intro same
      have cycle := afterLinked.isWithin_antisymm (afterLinked.isWithin_of_parent heldAfter)
        (same ▸ outer.isWithin_copy afterLinked)
      exact absurd (cycle ▸ heldAfter) (afterLinked.parent?_ne_self _)
    · intro same
      have cycle := linked.isWithin_antisymm (linked.isWithin_of_parent above)
        (same ▸ outer.isWithin linked)
      exact absurd (cycle ▸ above) (linked.parent?_ne_self _)

theorem find?_ancestors_iff {wanted wanted' : NodeId → Bool}
    (same : ∀ {id copy}, t.Image after root root' id copy → (t.node id).children ≠ [] →
      wanted' copy = wanted id) :
    (t.ancestors id).find? wanted = some root ↔
      (after.ancestors copy).find? wanted' = some root' := by
  induction image with
  | root =>
    constructor <;> intro isFound
    · exact absurd (List.mem_of_find?_eq_some isFound) (linked.notMem_ancestors root)
    · exact absurd (List.mem_of_find?_eq_some isFound) (afterLinked.notMem_ancestors root')
  | @child id copy child f image mirrors held induction =>
    have heldAfter := afterLinked.parent?_of_mirrors mirrors held
    rw [linked.ancestors_of_parent (linked.mem_children.mp held),
      afterLinked.ancestors_of_parent heldAfter, List.find?_cons, List.find?_cons,
      same image (List.ne_nil_of_mem held)]
    cases wanted id with
    | true => simp only [Option.some.injEq, image.eq_root_iff linked afterLinked]
    | false => exact induction

end Image

namespace Imaged

variable (imaged : t.Imaged after hole root root') (image : t.Image after root root' id copy)

include imaged

theorem not_hole_of_children (occupied : (t.node id).children ≠ []) : ¬hole id := fun isHole => by
  have isIdentifier := (imaged.isUse isHole).1
  cases shape : t.node id <;> simp_all [Node.isIdentifier, Node.identifier?, Node.children]

theorem not_hole_of_active (active : (t.node id).isInert = false) : ¬hole id := fun isHole => by
  have isIdentifier := (imaged.isUse isHole).1
  cases shape : t.node id <;> simp_all [Node.isIdentifier, Node.identifier?, Node.isInert]

include image

theorem scopeKind? (linked : t.Linked) (afterLinked : after.Linked) (isSolid : ¬hole id) :
    after.scopeKind? copy = t.scopeKind? id := by
  obtain ⟨g, same⟩ := imaged.solid image isSolid
  rw [Alike.scopeKind?_eq, Alike.scopeKind?_eq, same.tag]
  cases image with
  | root =>
    -- A sealed piece is no block.
    cases imaged.isSealed with
    | function shape => rw [shape]; rfl
    | inert isInert => cases shape : t.node root <;> simp_all [Node.isInert, Node.tag]
  | child f outer mirrors held =>
    rw [afterLinked.parent?_of_mirrors mirrors held, linked.mem_children.mp held, Option.any_some,
      Option.any_some, ← Node.isFunction_tag, mirrors.tag, Node.isFunction_tag]

theorem opens (linked : t.Linked) (afterLinked : after.Linked) (isSolid : ¬hole id) :
    after.opens copy = t.opens id := by
  rw [Tree.opens, imaged.scopeKind? image linked afterLinked isSolid, Tree.opens]

theorem spellings_patternNames (linked : t.Linked) (afterLinked : after.Linked) (binds : t.Binds id)
    (allocated : after.Allocated copy) :
    after.spellings (after.patternNames copy) = t.spellings (t.patternNames id) := by
  obtain ⟨parent, held⟩ := linked.exists_parent_of_binds binds
  have isAllocated := allocated_of_parent? held
  clear held parent
  induction id, isAllocated using linked.induction_children generalizing copy with
  | step id isAllocated induction =>
    have isSolid : ¬hole id := fun isHole =>
      linked.not_binds_of_isUse (by rw [Role.isUse, (imaged.isUse isHole).2, Bool.true_or]) binds
    obtain ⟨f, mirrors⟩ := imaged.solid image isSolid
    have identifier := mirrors.identifier?
    rw [afterLinked.patternNames_eq allocated, linked.patternNames_eq isAllocated,
      Node.isIdentifier, identifier, Node.isIdentifier]
    split
    · simp only [spellings, List.map_cons, List.map_nil, identifier]
    · rw [mirrors.part, spellings, spellings, List.map_flatMap, List.map_flatMap, List.flatMap_map,
        List.flatMap_def, List.flatMap_def]
      congr 1
      apply List.map_congr_left
      intro child isPart
      have childHeld := Node.mem_children_of_mem_part isPart
      exact induction child (linked.mem_children.mp childHeld) (.child f image mirrors childHeld)
        (.nested binds isPart)
        (allocated_of_parent? (afterLinked.parent?_of_mirrors mirrors childHeld))

theorem spellings_namesIn (linked : t.Linked) (afterLinked : after.Linked)
    (isSolid : ¬hole id) {part : Part} (isPlace : part ∈ [.target, .name, .params]) :
    after.spellings (after.namesIn copy part) = t.spellings (t.namesIn id part) := by
  obtain ⟨f, mirrors⟩ := imaged.solid image isSolid
  rw [namesIn, namesIn, mirrors.part, spellings, spellings, List.map_flatMap, List.map_flatMap,
    List.flatMap_map, List.flatMap_def, List.flatMap_def]
  congr 1
  apply List.map_congr_left
  intro child held
  have isChild := Node.mem_children_of_mem_part held
  exact imaged.spellings_patternNames (.child f image mirrors isChild) linked afterLinked
    (.place isPlace held) (allocated_of_parent? (afterLinked.parent?_of_mirrors mirrors isChild))

theorem spellings_name (isSolid : ¬hole id) (linked : t.Linked) :
    after.spellings ((after.node copy).part .name) = t.spellings ((t.node id).part .name) := by
  obtain ⟨f, mirrors⟩ := imaged.solid image isSolid
  rw [mirrors.part, spellings, spellings, List.map_map]
  apply List.map_congr_left
  intro child held
  have isBinding : t.Binds child := .place (by simp) held
  have childSolid : ¬hole child := fun isHole =>
    linked.not_binds_of_isUse (by rw [Role.isUse, (imaged.isUse isHole).2, Bool.true_or]) isBinding
  obtain ⟨g, same⟩ := imaged.solid (.child f image mirrors (Node.mem_children_of_mem_part held))
    childSolid
  rw [Function.comp_apply, same.identifier?]

end Imaged

def DeclaresAt (t : Tree) (id owner : NodeId) (name : String) : Prop :=
  ∃ d ∈ t.declarationsAt id, d.owner = owner ∧ d.name = name

theorem exists_declaredNames_iff {owner : Option NodeId} {scope : NodeId} {kind : BindingKind}
    {declaration : NodeId} {identifiers : List NodeId} :
    (∃ d ∈ t.declaredNames owner kind declaration identifiers, d.owner = scope ∧ d.name = name) ↔
      owner = some scope ∧ some name ∈ t.spellings identifiers := by
  simp only [mem_declaredNames, spellings, List.mem_map]
  constructor
  · rintro ⟨d, ⟨owner, -, -, member, spelled⟩, rfl, rfl⟩
    exact ⟨owner, d.identifier, member, spelled⟩
  · rintro ⟨rfl, id, member, spelled⟩
    exact ⟨⟨scope, name, kind, declaration, id⟩, ⟨rfl, rfl, rfl, member, spelled⟩, rfl, rfl⟩

theorem exists_mem_flatMap_iff {α β : Type} {l : List α} {f : α → List β} {holds : β → Prop} :
    (∃ b ∈ l.flatMap f, holds b) ↔ ∃ a ∈ l, ∃ b ∈ f a, holds b := by
  simp only [List.mem_flatMap]
  constructor
  · rintro ⟨b, ⟨a, member, produced⟩, isHeld⟩
    exact ⟨a, member, b, produced, isHeld⟩
  · rintro ⟨a, member, b, produced, isHeld⟩
    exact ⟨b, ⟨a, member, produced⟩, isHeld⟩

theorem Linked.hoistTarget?_eq (linked : t.Linked) (within : t.isWithin id outer = true)
    (isFunction : t.scopeKind? outer = some .function) : t.hoistTarget? (t.scopesFrom id) =
      (id :: t.ancestors id).find?
        fun place => t.opens place && !decide (t.scopeKind? place = some .block) := by
  obtain ⟨owner, rest, found, -⟩ := linked.exists_dropWhile_scopesFrom
    (fun place => t.scopeKind? place = some .block) within (by rw [Tree.opens, isFunction]; rfl)
    (by simp [isFunction])
  have first : (t.scopesFrom id).find? (fun place => !decide (t.scopeKind? place = some .block)) =
      some owner := by
    rw [List.find?_not_eq_head?_dropWhile, found, List.head?_cons]
  rw [hoistTarget?, found, List.head?_cons, Option.some_or, ← first, scopesFrom, List.find?_filter]
  simp only [Bool.decide_and, Bool.decide_eq_true]

namespace Imaged

variable (imaged : t.Imaged after hole root root') (linked : t.Linked) (afterLinked : after.Linked)
  (scope : t.Image after root root' outer outer') (image : t.Image after outer outer' id copy)
  (isSolid : ¬hole id)

include imaged linked afterLinked scope image isSolid

theorem find?_from_iff {wanted wanted' : NodeId → Bool}
    (same : ∀ {id copy}, t.Image after root root' id copy → ¬hole id → wanted' copy = wanted id) :
    (id :: t.ancestors id).find? wanted = some outer ↔
      (copy :: after.ancestors copy).find? wanted' = some outer' := by
  rw [List.find?_cons, List.find?_cons, same (scope.trans image) isSolid]
  cases wanted id with
  | true => simp only [Option.some.injEq, image.eq_root_iff linked afterLinked]
  | false =>
    exact image.find?_ancestors_iff linked afterLinked fun inner occupied =>
      same (scope.trans inner) (imaged.not_hole_of_children occupied)

theorem head?_scopesFrom_iff :
    (t.scopesFrom id).head? = some outer ↔ (after.scopesFrom copy).head? = some outer' := by
  rw [scopesFrom, scopesFrom, List.head?_filter, List.head?_filter]
  exact imaged.find?_from_iff linked afterLinked scope image isSolid fun inner isSolid =>
    imaged.opens inner linked afterLinked isSolid

omit isSolid in
theorem head?_scopesAround_iff :
    (t.scopesAround id).head? = some outer ↔ (after.scopesAround copy).head? = some outer' := by
  rw [scopesAround, scopesAround, List.head?_filter, List.head?_filter]
  exact image.find?_ancestors_iff linked afterLinked fun inner occupied =>
    imaged.opens (scope.trans inner) linked afterLinked (imaged.not_hole_of_children occupied)

theorem hoistTarget?_iff (active : (t.node id).isInert = false) :
    t.hoistTarget? (t.scopesFrom id) = some outer ↔
      after.hoistTarget? (after.scopesFrom copy) = some outer' := by
  have whole := scope.trans image
  obtain ⟨function, f, shape, -, within, inside⟩ :=
    imaged.isSealed.exists_function linked (whole.isWithin linked) active
  obtain ⟨function', place, between⟩ := whole.split linked within inside
  have kind : t.scopeKind? function = some .function := by rw [Tree.scopeKind?, shape]
  have functionSolid : ¬hole function := imaged.not_hole_of_active (by rw [shape]; rfl)
  have kindAfter := imaged.scopeKind? place linked afterLinked functionSolid
  rw [linked.hoistTarget?_eq within kind,
    afterLinked.hoistTarget?_eq (between.isWithin_copy afterLinked) (kindAfter.trans kind)]
  exact imaged.find?_from_iff linked afterLinked scope image isSolid fun inner isSolid => by
    rw [imaged.opens inner linked afterLinked isSolid,
      imaged.scopeKind? inner linked afterLinked isSolid]

theorem declaresAt_iff (wellBound : t.WellBound) :
    after.DeclaresAt copy outer' name ↔ t.DeclaresAt id outer name := by
  have whole := scope.trans image
  obtain ⟨f, mirrors⟩ := imaged.solid whole isSolid
  have nearest := imaged.head?_scopesFrom_iff linked afterLinked scope image isSolid
  have around := imaged.head?_scopesAround_iff linked afterLinked scope image
  have self : id = outer ↔ copy = outer' := (image.eq_root_iff linked afterLinked).symm
  unfold DeclaresAt declarationsAt
  rw [mirrors.tag]
  split
  case h_1 kind _ tag =>
    have hoisted := imaged.hoistTarget?_iff linked afterLinked scope image isSolid
      (by rw [← Node.isInert_tag, tag]; rfl)
    have sameOwner :
        (if kind = .var then t.hoistTarget? (t.scopesFrom id) else (t.scopesFrom id).head?) =
          some outer ↔ (if kind = .var then after.hoistTarget? (after.scopesFrom copy)
            else (after.scopesFrom copy).head?) = some outer' := by
      split
      · exact hoisted
      · exact nearest
    have sameNames {declarator : NodeId} (held : declarator ∈ (t.node id).part .declarators) :
        after.spellings (after.namesIn (f declarator) .target) =
          t.spellings (t.namesIn declarator .target) := by
      have declaratorSolid : ¬hole declarator := imaged.not_hole_of_active (by
        have form := wellBound.declarator held
        cases shape : t.node declarator <;> simp_all [Node.isDeclarator, Node.isInert])
      exact imaged.spellings_namesIn (.child f whole mirrors (Node.mem_children_of_mem_part held))
        linked afterLinked declaratorSolid (by simp)
    dsimp only
    rw [exists_mem_flatMap_iff, exists_mem_flatMap_iff, mirrors.part]
    simp only [exists_declaredNames_iff, List.mem_map, exists_exists_and_eq_and, sameOwner]
    refine exists_congr fun declarator => and_congr_right fun held => ?_
    rw [sameNames held]
  case h_2 g tag =>
    have names := imaged.spellings_name whole isSolid linked
    have params : after.spellings (after.namesIn copy .params) =
        t.spellings (t.namesIn id .params) :=
      imaged.spellings_namesIn whole linked afterLinked isSolid (by simp)
    simp only [List.mem_append, or_and_right, exists_or]
    split
    · simp only [exists_declaredNames_iff, names, params, around, Option.some.injEq, self]
    · simp only [exists_declaredNames_iff, names, params, Option.some.injEq, self]
  case h_3 c tag =>
    have names := imaged.spellings_name whole isSolid linked
    split
    · rw [exists_declaredNames_iff, exists_declaredNames_iff, names, nearest]
    · simp
  case h_4 => simp

omit image isSolid

omit afterLinked in
theorem exists_image (within : t.isWithin id outer = true) :
    ∃ copy, t.Image after outer outer' id copy := by
  induction id using linked.induction with
  | step id induction =>
    by_cases same : id = outer
    · exact ⟨outer', same ▸ .root⟩
    · obtain ⟨parent, held, within⟩ := linked.exists_parent_of_isWithin within same
      obtain ⟨copy, image⟩ := induction parent held within
      have isChild := linked.mem_children.mpr held
      obtain ⟨f, mirrors⟩ := imaged.solid (scope.trans image)
        (imaged.not_hole_of_children (List.ne_nil_of_mem isChild))
      exact ⟨f id, .child f image mirrors isChild⟩

omit linked in
theorem exists_original (within : after.isWithin copy outer' = true) :
    (∃ id, t.Image after outer outer' id copy ∧ ¬hole id) ∨
      ∃ id filling, t.Image after outer outer' id filling ∧ hole id ∧
        after.isWithin copy filling = true := by
  have settle {id copy : NodeId} (image : t.Image after outer outer' id copy) :
      (∃ id, t.Image after outer outer' id copy ∧ ¬hole id) ∨
        ∃ id filling, t.Image after outer outer' id filling ∧ hole id ∧
          after.isWithin copy filling = true := by
    by_cases isHole : hole id
    · exact .inr ⟨id, copy, image, isHole, isWithin_self⟩
    · exact .inl ⟨id, image, isHole⟩
  induction copy using afterLinked.induction with
  | step copy induction =>
    by_cases same : copy = outer'
    · subst same
      exact settle .root
    · obtain ⟨parent, held, within⟩ := afterLinked.exists_parent_of_isWithin within same
      rcases induction parent held within with
        ⟨original, image, isSolid⟩ | ⟨id, filling, image, isHole, below⟩
      · obtain ⟨f, mirrors⟩ := imaged.solid (scope.trans image) isSolid
        have isChild := afterLinked.mem_children.mpr held
        rw [mirrors.children, List.mem_map] at isChild
        obtain ⟨child, childHeld, rfl⟩ := isChild
        exact settle (.child f image mirrors childHeld)
      · exact .inr ⟨id, filling, image, isHole,
          afterLinked.isWithin_trans (afterLinked.isWithin_of_parent held) below⟩

theorem declares_iff (wellBound : t.WellBound) (isSolid : ¬hole outer) :
    (∃ copy, after.DeclaresAt copy outer' name) ↔ ∃ id, t.DeclaresAt id outer name := by
  constructor
  · rintro ⟨copy, d, member, isOwner, named⟩
    have within : after.isWithin copy outer' = true :=
      isOwner ▸ (afterLinked.introduces_of_mem member).owner
    rcases imaged.exists_original afterLinked scope within with
      ⟨id, image, idSolid⟩ | ⟨id, filling, image, isHole, below⟩
    · exact ⟨id, (imaged.declaresAt_iff linked afterLinked scope image idSolid wellBound).mp
        ⟨d, member, isOwner, named⟩⟩
    · -- What fills a hole declares nothing outside of it.
      have inside := (imaged.filled (scope.trans image) isHole).isWithin_owner afterLinked member
        below
      rw [isOwner] at inside
      have same := afterLinked.isWithin_antisymm (image.isWithin_copy afterLinked) inside
      rw [image.eq_root_iff linked afterLinked] at same
      exact absurd (same ▸ isHole) isSolid
  · rintro ⟨id, d, member, isOwner, named⟩
    have within : t.isWithin id outer = true := isOwner ▸ (linked.introduces_of_mem member).owner
    obtain ⟨copy, image⟩ := imaged.exists_image linked scope within
    have idSolid := imaged.not_hole_of_active (isInert_of_declarationsAt member)
    exact ⟨copy, (imaged.declaresAt_iff linked afterLinked scope image idSolid wellBound).mpr
      ⟨d, member, isOwner, named⟩⟩

end Imaged

/-! ### Looking names up -/

/-- The scopes that are seen from a node of a piece, with those that are seen from its image: some
in the piece, and then those around it or those that its root sees. -/
inductive Outlook (t after : Tree) (root root' : NodeId) : List NodeId → List NodeId → Prop where
  | around : Outlook t after root root' (t.scopesAround root) (after.scopesAround root')
  | beyond : Outlook t after root root' (t.beyond root) (after.beyond root')
  | scope {owner owner' : NodeId} {places places' : List NodeId}
      (image : t.Image after root root' owner owner') (opens : t.opens owner = true)
      (outer : Outlook t after root root' places places') :
      Outlook t after root root' (owner :: places) (owner' :: places')

namespace Imaged

variable (imaged : t.Imaged after hole root root') (linked : t.Linked) (afterLinked : after.Linked)
  (image : t.Image after root root' id copy)

include imaged linked afterLinked image

theorem outlook : t.Outlook after root root' (t.scopesAround id) (after.scopesAround copy) ∧
    t.Outlook after root root' (t.beyond id) (after.beyond copy) := by
  induction image with
  | root => exact ⟨.around, .beyond⟩
  | @child id copy child f image mirrors held induction =>
    have above := linked.mem_children.mp held
    have aboveAfter := afterLinked.parent?_of_mirrors mirrors held
    have same :=
      imaged.opens image linked afterLinked (imaged.not_hole_of_children (List.ne_nil_of_mem held))
    have enter : t.Outlook after root root' (t.scopesFrom id) (after.scopesFrom copy) := by
      cases opens : t.opens id with
      | true =>
        rw [scopesFrom_of_opens opens, scopesFrom_of_opens (same.trans opens)]
        exact .scope image opens induction.1
      | false =>
        rw [scopesFrom_of_closed opens, scopesFrom_of_closed (same.trans opens)]
        exact induction.1
    have sameHolds : after.holds copy (f child) .discriminant = t.holds id child .discriminant := by
      rw [Tree.holds, Tree.holds, decide_eq_decide,
        mirrors.mem_part_iff (afterLinked.nodup_children copy) held]
    rw [linked.scopesAround_of_parent above, afterLinked.scopesAround_of_parent aboveAfter,
      linked.beyond_of_parent above, afterLinked.beyond_of_parent aboveAfter, same, sameHolds]
    refine ⟨enter, ?_⟩
    split
    · exact enter
    · exact induction.2

end Imaged

theorem Outlook.look?_cases {places places' : List NodeId} (l l' : Lexicon) (name : String)
    (outlook : t.Outlook after root root' places places')
    (binds : ∀ {owner owner'}, t.Image after root root' owner owner' → t.opens owner = true →
      (l'.binder? owner' name).isSome = (l.binder? owner name).isSome) :
    (∃ owner owner', t.Image after root root' owner owner' ∧ owner ∈ places ∧
      (l.binder? owner name).isSome = true ∧ l.look? places name = l.binder? owner name ∧
        l'.look? places' name = l'.binder? owner' name) ∨
      (l.look? places name = l.look? (t.scopesAround root) name ∧
        l'.look? places' name = l'.look? (after.scopesAround root') name) ∨
      (l.look? places name = l.look? (t.beyond root) name ∧
        l'.look? places' name = l'.look? (after.beyond root') name) := by
  induction outlook with
  | around => exact .inr (.inl ⟨rfl, rfl⟩)
  | beyond => exact .inr (.inr ⟨rfl, rfl⟩)
  | @scope owner owner' places places' image opens _ induction =>
    have same := binds image opens
    cases bound : l.binder? owner name with
    | some d =>
      rw [bound, Option.isSome_some, Option.isSome_iff_exists] at same
      obtain ⟨d', boundAfter⟩ := same
      refine .inl ⟨owner, owner', image, List.mem_cons_self .., by rw [bound]; rfl, ?_, ?_⟩
      · rw [Lexicon.look?, List.findSome?_cons, bound]
      · rw [Lexicon.look?, List.findSome?_cons, boundAfter]
    | none =>
      rw [bound, Option.isSome_none, Option.isSome_eq_false_iff, Option.isNone_iff_eq_none] at same
      have pass : l.look? (owner :: places) name = l.look? places name := by
        rw [Lexicon.look?, List.findSome?_cons, bound, Lexicon.look?]
      have passAfter : l'.look? (owner' :: places') name = l'.look? places' name := by
        rw [Lexicon.look?, List.findSome?_cons, same, Lexicon.look?]
      rw [pass, passAfter]
      refine induction.imp_left ?_
      rintro ⟨o, o', isImage, member, rest⟩
      exact ⟨o, o', isImage, List.mem_cons_of_mem _ member, rest⟩

theorem Linked.isSome_binder?_iff (linked : t.Linked) {top owner : NodeId} (isTop : t.IsTop top)
    (attached : t.isWithin owner top = true) :
    ((t.lexicon top).binder? owner name).isSome = true ↔ ∃ id, t.DeclaresAt id owner name := by
  constructor
  · intro isSome
    obtain ⟨d, bound⟩ := Option.isSome_iff_exists.mp isSome
    obtain ⟨member, isOwner, named⟩ := Lexicon.binder?_some bound
    obtain ⟨id, -, declares⟩ := (linked.mem_declared isTop).mp member
    exact ⟨id, d, declares, isOwner, named⟩
  · rintro ⟨id, d, declares, rfl, rfl⟩
    have within := linked.isWithin_trans (linked.introduces_of_mem declares).owner attached
    obtain ⟨e, bound⟩ := Lexicon.exists_binder? ((linked.mem_declared isTop).mpr ⟨id,
      within, declares⟩)
    rw [bound, Option.isSome_some]

theorem Imaged.isSome_binder? (imaged : t.Imaged after hole root root') (linked : t.Linked)
    (afterLinked : after.Linked) (wellBound : t.WellBound) {top top' : NodeId} (isTop : t.IsTop top)
    (afterTop : after.IsTop top') (attached : t.isWithin root top = true)
    (attachedAfter : after.isWithin root' top' = true)
    (image : t.Image after root root' outer outer') (opens : t.opens outer = true) :
    ((after.lexicon top').binder? outer' name).isSome =
      ((t.lexicon top).binder? outer name).isSome := by
  have isSolid := imaged.not_hole_of_active (isInert_of_opens opens)
  rw [Bool.eq_iff_iff,
    linked.isSome_binder?_iff isTop (linked.isWithin_trans (image.isWithin linked) attached),
    afterLinked.isSome_binder?_iff afterTop
      (afterLinked.isWithin_trans (image.isWithin_copy afterLinked) attachedAfter)]
  exact imaged.declares_iff linked afterLinked image wellBound isSolid

theorem Image.binds (image : t.Image after root root' id copy) (afterLinked : after.Linked)
    (free : ¬after.Binds root') (binds : after.Binds copy) : t.Binds id := by
  induction image with
  | root => exact absurd binds free
  | @child id copy child f _ mirrors held induction =>
    have above := afterLinked.parent?_of_mirrors mirrors held
    have mem {part : Part} : f child ∈ (after.node copy).part part ↔
        child ∈ (t.node id).part part :=
      mirrors.mem_part_iff (afterLinked.nodup_children copy) held
    cases binds with
    | @place parent _ part isPlace isHeld =>
      have same := afterLinked.parent?_of_mem_part isHeld
      rw [above, Option.some.injEq] at same
      rw [← same, mem] at isHeld
      exact .place isPlace isHeld
    | @nested parent _ outer isHeld =>
      have same := afterLinked.parent?_of_mem_part isHeld
      rw [above, Option.some.injEq] at same
      rw [← same] at outer isHeld
      exact .nested (induction outer) (mem.mp isHeld)

end Tree

end Unravel
