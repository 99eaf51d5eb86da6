import Unravel.Proofs.Scope.Declaration

/-!
What a place sees, and what an identifier does there, depends on the nodes above alone: it is the
same in stores that agree on these (`Tree.Alike`). Stores that agree on the parts of these nodes too
also declare the same there (`Tree.Agrees`), such as those that agree on all of a tree
(`Tree.Unchanged`).

What an exchange of nodes does to roles, scopes and declarations: nothing for the nodes that neither
leave nor come in (`Tree.Stays`), up to what these declare.
-/

namespace Unravel.Tree

/-- Two stores agree on some nodes, with which all nodes above them belong. -/
structure Alike (t after : Tree) (shared : NodeId → Prop) : Prop where
  tag : ∀ {id}, shared id → (after.node id).tag = (t.node id).tag
  parent? : ∀ {id}, shared id → after.parent? id = t.parent? id
  above : ∀ {id parent}, shared id → t.parent? id = some parent → shared parent
  holds : ∀ {id parent} part, shared id → t.parent? id = some parent →
    after.holds parent id part = t.holds parent id part

variable {t after : Tree} {shared : NodeId → Prop} {id parent root : NodeId}

namespace Alike

variable (alike : t.Alike after shared) (linked : t.Linked) (afterLinked : after.Linked)

include alike

theorem identifier? (isShared : shared id) :
    (after.node id).identifier? = (t.node id).identifier? := by
  rw [← Node.identifier?_tag, alike.tag isShared, Node.identifier?_tag]

theorem isFunction (isShared : shared id) :
    (after.node id).isFunction = (t.node id).isFunction := by
  rw [← Node.isFunction_tag, alike.tag isShared, Node.isFunction_tag]

omit alike in
theorem scopeKind?_eq (t : Tree) (id : NodeId) : t.scopeKind? id =
    match (t.node id).tag with
    | .program _ => some .program
    | .function _ => some .function
    | .block _ =>
      if (t.parent? id).any fun parent => (t.node parent).isFunction then none else some .block
    | .for_ .. | .switch .. => some .block
    | _ => none := by
  rw [Tree.scopeKind?]
  cases t.node id <;> rfl

theorem scopeKind? (isShared : shared id) : after.scopeKind? id = t.scopeKind? id := by
  have sameParent := alike.parent? isShared
  have isBody : ((after.parent? id).any fun parent => (after.node parent).isFunction) =
      (t.parent? id).any fun parent => (t.node parent).isFunction := by
    rw [sameParent]
    cases held : t.parent? id with
    | none => rfl
    | some parent =>
      rw [Option.any_some, Option.any_some, alike.isFunction (alike.above isShared held)]
  rw [scopeKind?_eq, scopeKind?_eq, alike.tag isShared, isBody]

theorem opens (isShared : shared id) : after.opens id = t.opens id := by
  rw [Tree.opens, alike.scopeKind? isShared, Tree.opens]

theorem functionNamedBy? (isShared : shared id) :
    after.functionNamedBy? id = t.functionNamedBy? id := by
  rw [Tree.functionNamedBy?, Tree.functionNamedBy?, alike.parent? isShared]
  cases held : t.parent? id with
  | none => rfl
  | some parent =>
    rw [Option.filter_some, Option.filter_some, alike.holds .name isShared held,
      alike.tag (alike.above isShared held)]

include linked

omit alike in
theorem shared_of_mem_ancestors (alike : t.Alike after shared) (isShared : shared id)
    (member : parent ∈ t.ancestors id) : shared parent := by
  induction id using linked.induction with
  | step id induction =>
    obtain ⟨next, held, place⟩ := linked.mem_ancestors_iff.mp member
    have nextShared := alike.above isShared held
    rcases place with rfl | place
    · exact nextShared
    · exact induction next held nextShared place

theorem scopeAmong?_ancestors (isShared : shared id) :
    after.scopeAmong? (some id) (t.ancestors id) = t.scopeAmong? (some id) (t.ancestors id) := by
  induction id using linked.induction with
  | step id induction =>
    cases held : t.parent? id with
    | none => rw [ancestors_of_root held, Tree.scopeAmong?, Tree.scopeAmong?]
    | some parent =>
      have parentShared := alike.above isShared held
      rw [linked.ancestors_of_parent held, Tree.scopeAmong?, Tree.scopeAmong?,
        alike.opens parentShared, Option.any_some, Option.any_some, alike.holds _ isShared held,
        induction parent held parentShared]

theorem patternRole (isShared : shared id) :
    after.patternRole id (t.ancestors id) = t.patternRole id (t.ancestors id) := by
  induction id using linked.induction with
  | step id induction =>
    cases held : t.parent? id with
    | none => rw [ancestors_of_root held, Tree.patternRole, Tree.patternRole]
    | some parent =>
      have parentShared := alike.above isShared held
      have same : after.holds parent id = t.holds parent id :=
        funext fun part => alike.holds part isShared held
      rw [linked.ancestors_of_parent held, patternRole_cons, patternRole_cons,
        alike.tag parentShared, same, induction parent held parentShared]

include afterLinked

theorem ancestors (isShared : shared id) : after.ancestors id = t.ancestors id := by
  induction id using linked.induction with
  | step id induction =>
    have same := alike.parent? isShared
    cases held : t.parent? id with
    | none => rw [ancestors_of_root held, ancestors_of_root (same.trans held)]
    | some parent =>
      rw [linked.ancestors_of_parent held, afterLinked.ancestors_of_parent (same.trans held),
        induction parent held (alike.above isShared held)]

theorem isWithin (isShared : shared id) (outer : NodeId) :
    after.isWithin id outer = t.isWithin id outer := by
  rw [Tree.isWithin, Tree.isWithin, alike.ancestors linked afterLinked isShared]

theorem scopesAround (isShared : shared id) : after.scopesAround id = t.scopesAround id := by
  rw [Tree.scopesAround, alike.ancestors linked afterLinked isShared, Tree.scopesAround]
  apply List.filter_congr
  exact fun above member => alike.opens (shared_of_mem_ancestors linked alike isShared member)

theorem scopesFrom (isShared : shared id) : after.scopesFrom id = t.scopesFrom id := by
  have around := alike.scopesAround linked afterLinked isShared
  rw [Tree.scopesAround, Tree.scopesAround] at around
  rw [Tree.scopesFrom, Tree.scopesFrom, List.filter_cons, List.filter_cons,
    alike.opens isShared, around]

theorem hoistTarget? (isShared : shared id) :
    after.hoistTarget? (after.scopesFrom id) = t.hoistTarget? (t.scopesFrom id) := by
  rw [alike.scopesFrom linked afterLinked isShared, Tree.hoistTarget?, Tree.hoistTarget?]
  congr 2
  apply dropWhile_congr
  intro place member
  have placeShared : shared place := by
    rcases isWithin_iff.mp (mem_scopesFrom.mp member).1 with rfl | above
    · exact isShared
    · exact shared_of_mem_ancestors linked alike isShared above
  rw [alike.scopeKind? placeShared]

theorem scopeNode? (isShared : shared id) : after.scopeNode? id = t.scopeNode? id := by
  rw [Tree.scopeNode?, Tree.scopeNode?, alike.functionNamedBy? isShared]
  cases named : t.functionNamedBy? id with
  | none =>
    simp only [alike.ancestors linked afterLinked isShared, Tree.scopeAmong?, Option.any_none,
      alike.opens isShared, alike.scopeAmong?_ancestors linked isShared]
  | some function =>
    have functionShared := alike.above isShared (parent?_of_functionNamedBy? named)
    simp only [alike.ancestors linked afterLinked functionShared,
      alike.scopeAmong?_ancestors linked functionShared]

theorem sight (isShared : shared id) : after.sight id = t.sight id := by
  rw [Tree.sight, alike.scopeNode? linked afterLinked isShared, Tree.sight]
  cases found : t.scopeNode? id with
  | none => rfl
  | some node =>
    have nodeShared : shared node := by
      rcases isWithin_iff.mp (linked.isWithin_of_scopeNode? found).1 with rfl | member
      · exact isShared
      · exact shared_of_mem_ancestors linked alike isShared member
    simp [alike.scopesFrom linked afterLinked nodeShared]

theorem role (isShared : shared id) : after.role id = t.role id := by
  have sameParent := alike.parent? isShared
  cases held : t.parent? id with
  | none => rw [Tree.role, sameParent, held, Tree.role, held]
  | some parent =>
    have parentShared := alike.above isShared held
    have same : after.holds parent id = t.holds parent id :=
      funext fun part => alike.holds part isShared held
    rw [role_of_parent held, role_of_parent (sameParent.trans held), alike.tag parentShared, same,
      alike.ancestors linked afterLinked parentShared, alike.patternRole linked parentShared]

end Alike

/-! ### Stores that agree on nodes with their parts -/

/-- Two stores agree on some nodes, with which all nodes above them and all their parts belong. -/
structure Agrees (t after : Tree) (shared : NodeId → Prop) : Prop extends t.Alike after shared where
  part : ∀ {id} part, shared id → (after.node id).part part = (t.node id).part part
  below : ∀ {id child part}, shared id → child ∈ (t.node id).part part → shared child

namespace Agrees

variable (agrees : t.Agrees after shared) (linked : t.Linked) (afterLinked : after.Linked)

include agrees linked

theorem of_mem_patternNames {name : NodeId} (isShared : shared id) (allocated : t.Allocated id)
    (member : name ∈ t.patternNames id) : shared name := by
  induction id, allocated using linked.induction_children with
  | step id allocated induction =>
    rw [linked.patternNames_eq allocated] at member
    split at member
    · exact List.mem_singleton.mp member ▸ isShared
    · obtain ⟨child, held, below⟩ := List.mem_flatMap.mp member
      exact induction child (linked.parent?_of_mem_part held) (agrees.below isShared held) below

include afterLinked

omit linked in
theorem allocated_after {child : NodeId} {part : Part} (isShared : shared id)
    (member : child ∈ (t.node id).part part) :
    after.Allocated child := by
  rw [← agrees.part part isShared] at member
  exact allocated_of_parent? (afterLinked.parent?_of_mem_part member)

theorem patternNames (isShared : shared id) (allocated : t.Allocated id)
    (afterAllocated : after.Allocated id) :
    after.patternNames id = t.patternNames id := by
  induction id, allocated using linked.induction_children with
  | step id allocated induction =>
    rw [linked.patternNames_eq allocated, afterLinked.patternNames_eq afterAllocated,
      agrees.part .pattern isShared, Node.isIdentifier, agrees.identifier? isShared,
      ← Node.isIdentifier]
    split
    · rfl
    · rw [List.flatMap_def, List.flatMap_def]
      congr 1
      apply List.map_congr_left
      intro child member
      exact induction child (linked.parent?_of_mem_part member) (agrees.below isShared member)
        (agrees.allocated_after afterLinked isShared member)

theorem namesIn (isShared : shared id) (part : Part) :
    after.namesIn id part = t.namesIn id part := by
  rw [Tree.namesIn, agrees.part part isShared, Tree.namesIn, List.flatMap_def, List.flatMap_def]
  congr 1
  apply List.map_congr_left
  intro child member
  exact agrees.patternNames linked afterLinked (agrees.below isShared member)
    (allocated_of_parent? (linked.parent?_of_mem_part member))
    (agrees.allocated_after afterLinked isShared member)

omit linked afterLinked in
theorem declaredNames (owner : Option NodeId) (kind : BindingKind) (declaration : NodeId)
    {identifiers : List NodeId} (areShared : ∀ id ∈ identifiers, shared id) :
    after.declaredNames owner kind declaration identifiers = t.declaredNames owner kind declaration
      identifiers := by
  cases owner with
  | none => rfl
  | some owner =>
    simp only [Tree.declaredNames]
    apply List.filterMap_congr
    intro id member
    rw [agrees.identifier? (areShared id member)]

theorem declarationsAt (isShared : shared id) : after.declarationsAt id = t.declarationsAt id := by
  have ofNames {holder : NodeId} (isShared : shared holder) {part : Part} :
      ∀ name ∈ t.namesIn holder part, shared name := by
    intro name member
    obtain ⟨pattern, held, below⟩ := List.mem_flatMap.mp member
    exact agrees.of_mem_patternNames linked (agrees.below isShared held)
      (allocated_of_parent? (linked.parent?_of_mem_part held)) below
  rw [Tree.declarationsAt, Tree.declarationsAt, agrees.tag isShared,
    agrees.part .declarators isShared, agrees.part .name isShared,
    agrees.hoistTarget? linked afterLinked isShared, agrees.scopesFrom linked afterLinked isShared,
    agrees.scopesAround linked afterLinked isShared]
  split
  case h_1 kind _ _ =>
    rw [List.flatMap_def, List.flatMap_def]
    congr 1
    apply List.map_congr_left
    intro declarator held
    have isPart := agrees.below isShared held
    rw [agrees.namesIn linked afterLinked isPart]
    exact agrees.declaredNames _ _ _ (ofNames isPart)
  case h_2 f _ =>
    rw [agrees.namesIn linked afterLinked isShared,
      agrees.declaredNames _ _ _ fun name => agrees.below isShared,
      agrees.declaredNames _ _ _ fun name => agrees.below isShared,
      agrees.declaredNames _ _ _ (ofNames isShared)]
  case h_3 c _ => rw [agrees.declaredNames _ _ _ fun name => agrees.below isShared]
  case h_4 => rfl

end Agrees

/-! ### Stores that agree on all of a tree -/

/-- A change of a store leaves the tree below a root alone. -/
structure Unchanged (t after : Tree) (root : NodeId) : Prop where
  node : ∀ {id}, t.isWithin id root = true → after.node id = t.node id
  parent? : ∀ {id}, t.isWithin id root = true → after.parent? id = t.parent? id

namespace Unchanged

variable (unchanged : t.Unchanged after root) (linked : t.Linked) (afterLinked : after.Linked)
  (top : t.parent? root = none)

include unchanged linked

omit unchanged in
theorem isWithin_child {child : NodeId} (held : t.parent? child = some parent)
    (attached : t.isWithin parent root = true) : t.isWithin child root = true :=
  linked.isWithin_trans (linked.isWithin_of_parent held) attached

include top

theorem alike : t.Alike after fun id => t.isWithin id root = true where
  tag attached := by rw [unchanged.node attached]
  parent? attached := unchanged.parent? attached
  above {id parent} attached held := by
    rwa [← linked.isWithin_parent held]
    rintro rfl
    rw [top] at held
    cases held
  holds {id parent} part attached held := by
    have different : id ≠ root := by
      rintro rfl
      rw [top] at held
      cases held
    rw [linked.isWithin_parent held different] at attached
    rw [holds, holds, unchanged.node attached]

include afterLinked

theorem isWithin_root : after.isWithin id root = t.isWithin id root := by
  rw [Bool.eq_iff_iff]
  constructor
  · intro attached
    induction id using afterLinked.induction with
    | step id induction =>
      by_cases isRoot : id = root
      · rw [isRoot, isWithin_self]
      · cases held : after.parent? id with
        | none => exact absurd ((isWithin_of_root held).mp attached) isRoot
        | some parent =>
          rw [afterLinked.isWithin_parent held isRoot] at attached
          have parentAttached := induction parent held attached
          have member := afterLinked.mem_children.mpr held
          rw [unchanged.node parentAttached] at member
          exact isWithin_child linked (linked.mem_children.mp member) parentAttached
  · intro attached
    rw [(unchanged.alike linked top).isWithin linked afterLinked attached, attached]

theorem trans {last : Tree} (further : after.Unchanged last root) : t.Unchanged last root where
  node attached :=
    (further.node ((unchanged.isWithin_root linked afterLinked top).trans attached)).trans
      (unchanged.node attached)
  parent? attached :=
    (further.parent? ((unchanged.isWithin_root linked afterLinked top).trans attached)).trans
      (unchanged.parent? attached)

variable (allocated : t.Allocated id) (afterAllocated : after.Allocated id)

omit top in
theorem allocated_after {child : NodeId} (attached : t.isWithin id root = true)
    (held : t.parent? child = some id) : after.Allocated child := by
  have member := linked.mem_children.mpr held
  rw [← unchanged.node attached] at member
  exact allocated_of_parent? (afterLinked.mem_children.mp member)

include allocated afterAllocated

omit top in
theorem descendants (attached : t.isWithin id root = true) :
    after.descendants id = t.descendants id := by
  induction id, allocated using linked.induction_children with
  | step id allocated induction =>
    rw [linked.descendants_eq allocated, afterLinked.descendants_eq afterAllocated,
      unchanged.node attached, List.flatMap_def, List.flatMap_def]
    congr 2
    apply List.map_congr_left
    intro child member
    have held := linked.mem_children.mp member
    exact induction child held (unchanged.allocated_after linked afterLinked attached held)
      (isWithin_child linked held attached)

omit allocated afterAllocated in
theorem declarationsAt (attached : t.isWithin id root = true) :
    after.declarationsAt id = t.declarationsAt id := by
  have agrees : t.Agrees after fun id => t.isWithin id root = true :=
    { toAlike := unchanged.alike linked top
      part := fun part attached => by rw [unchanged.node attached]
      below := fun attached member => isWithin_child linked (linked.parent?_of_mem_part
        member) attached }
  exact agrees.declarationsAt linked afterLinked attached

end Unchanged

end Unravel.Tree

/-! ### Exchanges of nodes -/

namespace Unravel

namespace Tree

variable {t after : Tree} {id parent old root : NodeId} {new : Option NodeId}

/-- Whether a node neither leaves nor comes in. -/
structure Stays (t : Tree) (old : NodeId) (new : Option NodeId) (id : NodeId) : Prop where
  outside : t.isWithin id old = false
  present : t.isIncoming new id = false

namespace Stays

variable (stays : t.Stays old new id)

include stays

theorem ne_old : id ≠ old := by
  rintro rfl
  simpa using stays.outside

theorem ne_new : new ≠ some id := by
  rintro rfl
  simpa using stays.present

theorem of_parent? (linked : t.Linked) (possible : t.Exchangeable old new)
    (held : t.parent? id = some parent) : t.Stays old new parent where
  outside := by rw [← linked.isWithin_parent held stays.ne_old, stays.outside]
  present := by rw [← isIncoming_parent linked possible held, stays.present]

theorem of_mem_ancestors (linked : t.Linked) (possible : t.Exchangeable old new)
    (member : parent ∈ t.ancestors id) : t.Stays old new parent := by
  induction id using linked.induction with
  | step id induction =>
    obtain ⟨above, held, place⟩ := linked.mem_ancestors_iff.mp member
    have aboveStays := stays.of_parent? linked possible held
    rcases place with rfl | place
    · exact aboveStays
    · exact induction above held aboveStays place

theorem child (linked : t.Linked) (possible : t.Exchangeable old new) {child : NodeId}
    (held : t.parent? child = some id) (notOld : child ≠ old) : t.Stays old new child where
  outside := by rw [linked.isWithin_parent held notOld, stays.outside]
  present := by rw [isIncoming_parent linked possible held, stays.present]

end Stays

namespace Edited

variable (edited : t.Edited after old new) (linked : t.Linked) (possible : t.Exchangeable old new)

include edited

theorem identifier? (id : NodeId) : (after.node id).identifier? = (t.node id).identifier? := by
  rw [← Node.identifier?_tag, edited.tag, Node.identifier?_tag]

theorem isIdentifier (id : NodeId) : (after.node id).isIdentifier = (t.node id).isIdentifier := by
  rw [Node.isIdentifier, edited.identifier?, Node.isIdentifier]

theorem holds (stays : t.Stays old new id) (holder : NodeId) (part : Part) :
    after.holds holder id part = t.holds holder id part := by
  rw [Tree.holds, Tree.holds, (edited.node holder).part, decide_eq_decide, mem_flatMap_swap]
  simp [stays.ne_old, Ne.symm stays.ne_new]

theorem parent?_of_stays (stays : t.Stays old new id) : after.parent? id = t.parent? id :=
  edited.parent?_of_ne stays.ne_old stays.ne_new

include linked possible

theorem alike : t.Alike after (t.Stays old new) where
  tag {id} _ := edited.tag id
  parent? stays := edited.parent?_of_stays stays
  above stays held := stays.of_parent? linked possible held
  holds part stays _ := edited.holds stays _ part

/-! The names of patterns and the declarations change by what leaves and what comes in. -/

theorem filter_names {places : List NodeId}
    (same : ∀ place ∈ places, place ≠ old →
      (after.patternNames place).filter (fun name => !t.isIncoming new name) =
        (t.patternNames place).filter fun name => !t.isWithin name old) :
    ((places.flatMap (swap old new)).flatMap after.patternNames).filter
        (fun name => !t.isIncoming new name) =
      (places.flatMap t.patternNames).filter fun name => !t.isWithin name old := by
  have afterLinked := edited.linked linked possible
  obtain ⟨oldParent, oldHeld⟩ := possible.held
  apply filter_flatMap_swap same
  · rw [List.filter_eq_nil_iff]
    intro name named
    simp [linked.isWithin_of_mem_patternNames (allocated_of_parent? oldHeld) named]
  · intro n isNew
    rw [List.filter_eq_nil_iff]
    intro name named
    have allocated := edited.allocated.mpr (possible.allocated n isNew)
    have within := afterLinked.isWithin_of_mem_patternNames allocated named
    rw [edited.isWithin_new linked possible isNew] at within
    simp [isNew, within]

theorem filter_patternNames (allocated : t.Allocated id) (stays : t.Stays old new id) :
    (after.patternNames id).filter (fun name => !t.isIncoming new name) =
      (t.patternNames id).filter fun name => !t.isWithin name old := by
  have afterLinked := edited.linked linked possible
  induction id, allocated using linked.induction_children with
  | step id allocated induction =>
    rw [afterLinked.patternNames_eq (edited.allocated.mpr allocated),
      linked.patternNames_eq allocated, edited.isIdentifier, (edited.node id).part]
    split
    · simp [stays.outside, stays.present]
    · refine edited.filter_names linked possible ?_
      intro place held notOld
      have above := linked.parent?_of_mem_part held
      exact induction place above (stays.child linked possible above notOld)

theorem filter_namesIn (stays : t.Stays old new id) (part : Part) :
    (after.namesIn id part).filter (fun name => !t.isIncoming new name) =
      (t.namesIn id part).filter fun name => !t.isWithin name old := by
  rw [Tree.namesIn, (edited.node id).part, Tree.namesIn]
  refine edited.filter_names linked possible ?_
  intro place held notOld
  have above := linked.parent?_of_mem_part held
  exact edited.filter_patternNames linked possible (allocated_of_parent? above)
    (stays.child linked possible above notOld)

theorem filter_name (stays : t.Stays old new id) :
    ((after.node id).part .name).filter (fun name => !t.isIncoming new name) =
      ((t.node id).part .name).filter fun name => !t.isWithin name old := by
  have each : ((((t.node id).part .name).flatMap (swap old new)).flatMap fun name => [name]).filter
      (fun name => !t.isIncoming new name) =
        (((t.node id).part .name).flatMap fun name => [name]).filter
          fun name => !t.isWithin name old := by
    refine filter_flatMap_swap ?_ (by simp) (fun n isNew => by simp [isNew])
    intro child held notOld
    have childStays := stays.child linked possible (linked.parent?_of_mem_part held) notOld
    simp [childStays.outside, childStays.present]
  rwa [List.flatMap_singleton', List.flatMap_singleton', ← (edited.node id).part] at each

omit linked possible in
theorem declaredNames (owner : Option NodeId) (kind : BindingKind) (declaration : NodeId)
    (identifiers : List NodeId) :
    after.declaredNames owner kind declaration identifiers =
      t.declaredNames owner kind declaration identifiers := by
  cases owner with
  | none => rfl
  | some owner => simp only [Tree.declaredNames, edited.identifier?]

theorem filter_declarationsAt (stays : t.Stays old new id) :
    (after.declarationsAt id).filter (fun d => !t.isIncoming new d.identifier) =
      (t.declarationsAt id).filter fun d => !t.isWithin d.identifier old := by
  have filterAfter := fun owner kind declaration identifiers =>
    t.filter_declaredNames owner kind declaration identifiers fun name => !t.isIncoming new name
  have filterBefore := fun owner kind declaration identifiers =>
    t.filter_declaredNames owner kind declaration identifiers fun name => !t.isWithin name old
  have named := edited.filter_name linked possible stays
  have alike := edited.alike linked possible
  have afterLinked := edited.linked linked possible
  rw [declarationsAt, declarationsAt, edited.tag]
  simp only [edited.declaredNames]
  split
  case h_1 kind _ _ =>
    have scope : (if kind = .var then after.hoistTarget? (after.scopesFrom id)
        else (after.scopesFrom id).head?) =
        if kind = .var then t.hoistTarget? (t.scopesFrom id) else (t.scopesFrom id).head? := by
      rw [alike.hoistTarget? linked afterLinked stays, alike.scopesFrom linked afterLinked stays]
    simp only [scope, (edited.node id).part]
    generalize (if kind = .var then t.hoistTarget? (t.scopesFrom id)
      else (t.scopesFrom id).head?) = owner
    apply filter_flatMap_swap
    · intro declarator held notOld
      have above := linked.parent?_of_mem_part held
      rw [filterAfter, filterBefore,
        edited.filter_namesIn linked possible (stays.child linked possible above notOld)]
    · rw [filterBefore]
      have gone : (t.namesIn old .target).filter (fun name => !t.isWithin name old) = [] := by
        rw [List.filter_eq_nil_iff]
        intro name member
        obtain ⟨pattern, held, below⟩ := linked.isWithin_of_mem_namesIn member
        simp [linked.isWithin_trans below
          (linked.isWithin_of_parent (linked.parent?_of_mem_part held))]
      rw [gone]
      cases owner <;> rfl
    · intro n isNew
      rw [filterAfter]
      have fresh : (after.namesIn n .target).filter (fun name => !t.isIncoming new name) = [] := by
        rw [List.filter_eq_nil_iff]
        intro name member
        obtain ⟨pattern, held, below⟩ := afterLinked.isWithin_of_mem_namesIn member
        have within := afterLinked.isWithin_trans below
          (afterLinked.isWithin_of_parent (afterLinked.parent?_of_mem_part held))
        rw [edited.isWithin_new linked possible isNew] at within
        simp [isNew, within]
      rw [fresh]
      cases owner <;> rfl
  case h_2 f _ =>
    rw [List.filter_append, List.filter_append, filterAfter, filterBefore,
      edited.filter_namesIn linked possible stays, alike.scopesAround linked afterLinked stays]
    congr 1
    split <;> rw [filterAfter, filterBefore, named]
  case h_3 c _ =>
    rw [alike.scopesFrom linked afterLinked stays]
    split
    · rw [filterAfter, filterBefore, named]
    · rfl
  case h_4 => rfl

end Edited

end Tree

end Unravel
