import Unravel.Proofs.Scope.Alike
import Unravel.Proofs.Scope.WellBound
import Unravel.Proofs.Tree.Assembly

/-!
Building new pieces of a tree. While they are built, the store only grows, stays well bound, and the
finished pieces hang nowhere (`Tree.Building`). An action uses up some of the pieces at hand and
yields others (`Tree.Makes`).
-/

namespace Unravel

theorem Node.part_of_isSimple {node : Node NodeId} (simple : node.isSimple = true) :
    ∀ part ∈ [.target, .name, .params, .declarators], node.part part = [] := by
  cases node <;> simp_all [Node.isSimple, Node.part]

namespace Tree

variable {t mid : Tree} {held held' used : List NodeId} {id : NodeId}
  {node : Node NodeId} {α β : Type}

/-- A store has grown well bound, and some pieces are at hand. -/
structure Building (t : Tree) (held : List NodeId) (mid : Tree) : Prop where
  grows : t.Grows mid
  wellBound : mid.WellBound
  nonempty : mid.size ≠ 0
  loose : ∀ id ∈ held, t.Loose mid id
  distinct : held.Nodup

namespace Building

theorem toAssembly (building : t.Building held mid) : t.Assembly held mid :=
  ⟨building.grows, building.nonempty, building.loose, building.distinct⟩

theorem of_assembly (assembly : t.Assembly held mid) (wellBound : mid.WellBound) :
    t.Building held mid :=
  ⟨assembly.grows, wellBound, assembly.nonempty, assembly.loose, assembly.distinct⟩

theorem start (linked : t.Linked) (wellBound : t.WellBound) (nonempty : t.size ≠ 0) :
    t.Building [] t :=
  .of_assembly (.start linked nonempty) wellBound

theorem perm (building : t.Building held mid) (same : held.Perm held') : t.Building held' mid :=
  .of_assembly (building.toAssembly.perm same) building.wellBound

theorem copied (building : t.Building held mid) (root : NodeId) :
    ∃ copyOf, mid.Copied root copyOf (copyMapped root mid).2 ∧
      (copyMapped root mid).1.2.of = copyOf ∧ (copyMapped root mid).1.1 = copyOf root ∧
      t.Building (copyOf root :: held) (copyMapped root mid).2 := by
  obtain ⟨copied, isCopy⟩ := building.grows.linked.copied building.nonempty root
  exact ⟨_, copied, rfl, isCopy, .of_assembly (building.toAssembly.add copied.grows copied.loose)
    (copied.wellBound building.grows.linked building.wellBound)⟩

theorem alloc (node : Node NodeId) (building : t.Building (node.children ++ held) mid)
    (places : ∀ part ∈ [.target, .name, .params], ∀ child ∈ node.part part, mid.IsPattern child)
    (declarators : ∀ child ∈ node.part .declarators, (mid.node child).isDeclarator = true) :
    t.Building ((Tree.alloc node mid).1 :: held) (Tree.alloc node mid).2 := by
  refine .of_assembly (building.toAssembly.alloc node)
    (building.wellBound.alloc building.grows.linked (fun child member => ?_) places declarators)
  exact (building.loose child (List.mem_append_left _ member)).allocated

end Building

/-! ### Actions -/

/-- An action uses up some pieces and yields others, and leaves all other pieces alone. -/
def Makes (used : List NodeId) (made : α → List NodeId) (action : StateM Tree α) : Prop :=
  ∀ t held mid, Building t (used ++ held) mid →
    t.Building (made (action mid).1 ++ held) (action mid).2

variable {made : α → List NodeId} {made' : β → List NodeId} {action : StateM Tree α}

namespace Makes

theorem pure {result : α} (same : used.Perm (made result)) : Makes used made (pure result) :=
  fun _ held _ building => building.perm (same.append_right held)

theorem bind {next : α → StateM Tree β} (first : Makes used made action)
    (second : ∀ a, Makes (made a) made' (next a)) : Makes used made' (action >>= next) :=
  fun t held mid building => second _ t held _ (first t held mid building)

theorem frame (makes : Makes used made action) (rest : List NodeId) :
    Makes (used ++ rest) (fun a => made a ++ rest) action := by
  intro t held mid building
  rw [List.append_assoc] at building ⊢
  exact makes t (rest ++ held) mid building

theorem perm (makes : Makes used made action) {used' : List NodeId} (same : used'.Perm used) :
    Makes used' made action :=
  fun t held mid building => makes t held mid (building.perm (same.append_right held))

theorem map (makes : Makes used made action) {f : α → β} (same : ∀ a, (made a).Perm (made' (f a))) :
    Makes used made' (f <$> action) :=
  fun t held mid building => (makes t held mid building).perm ((same _).append_right held)

theorem mapM {f : β → StateM Tree NodeId} (items : List β)
    (each : ∀ item ∈ items, Makes [] piece (f item)) :
    Makes [] (fun made => made) (items.mapM f) := by
  induction items with
  | nil => exact .pure .rfl
  | cons head rest induction =>
    rw [List.forall_mem_cons] at each
    rw [List.mapM_cons]
    refine .bind each.1 fun first => .bind ((induction each.2).frame (piece first)) fun others => ?_
    exact .pure (List.perm_append_singleton first others)

end Makes

theorem makes_alloc (node : Node NodeId)
    (plain : ∀ part ∈ [.target, .name, .params, .declarators], node.part part = []) :
    Makes node.children piece (alloc node) := by
  intro t held mid building
  refine building.alloc node (fun part isPlace child isHeld => ?_) fun child isHeld => ?_
  · rw [plain part (by simp only [List.mem_cons, List.not_mem_nil, or_false] at isPlace ⊢; tauto)]
      at isHeld
    cases isHeld
  · rw [plain .declarators (by simp)] at isHeld
    cases isHeld

theorem workshop_building (t : Tree) : Workshop t.Building where
  perm _ _ _ building same := building.perm same
  alloc node simple := makes_alloc node (Node.part_of_isSimple simple) t

theorem makes_copy (root : NodeId) : Makes [] piece (copy root) := by
  intro t held mid building
  obtain ⟨copyOf, -, -, isCopy, grown⟩ := building.copied root
  rw [← isCopy] at grown
  exact grown

theorem Building.mapM_copy (building : t.Building held mid) (roots : List NodeId) :
    t.Building ((roots.mapM copy mid).1 ++ held) (roots.mapM copy mid).2 ∧
      ((∀ root ∈ roots, mid.IsPattern root) →
        ∀ copied ∈ (roots.mapM copy mid).1, (roots.mapM copy mid).2.IsPattern copied) := by
  refine ⟨Makes.mapM roots (fun root _ => makes_copy root) t held mid building, ?_⟩
  induction roots generalizing t held mid with
  | nil => exact fun _ copied member => absurd member List.not_mem_nil
  | cons head rest induction =>
    intro patterns
    rw [List.forall_mem_cons] at patterns
    obtain ⟨copyOf, copied, -, isCopy, grown⟩ := building.copied head
    have start := Building.start copied.grows.linked grown.wellBound grown.nonempty
    have further := (Makes.mapM rest (fun root _ => makes_copy root) _ [] _ start).grows
    have result : ((head :: rest).mapM copy mid) = ((copyMapped head mid).1.1 ::
        (rest.mapM copy (copyMapped head mid).2).1,
          (rest.mapM copy (copyMapped head mid).2).2) := by
      rw [List.mapM_cons]
      rfl
    rw [result, List.forall_mem_cons, isCopy]
    refine ⟨further.isPattern (copied.isPattern building.grows.linked isWithin_self patterns.1), ?_⟩
    exact induction grown fun root member => copied.grows.isPattern (patterns.2 root member)

theorem makes_identifier (name : String) : Makes [] piece (identifier name) :=
  fun t => (workshop_building t).identifier name

theorem makes_stringLiteral (value : String) : Makes [] piece (stringLiteral value) :=
  fun t => (workshop_building t).literal (.string value none)

theorem makes_namedProperty (key : String) (value : NodeId) :
    Makes [value] piece (namedProperty key value) :=
  fun t => (workshop_building t).namedProperty key value

theorem makes_quotedProperty (key : String) (value : NodeId) :
    Makes [value] piece (quotedProperty key value) :=
  fun t => (workshop_building t).quotedProperty key value

theorem makes_dotMember (base : NodeId) (key : String) : Makes [base] piece (dotMember base key) :=
  fun t => (workshop_building t).dotMember base key

theorem makes_memberFunction (kind : MethodKind) (name : String) (value : NodeId) :
    Makes [value] piece (memberFunction kind name value) :=
  fun t => (workshop_building t).memberFunction kind name value

theorem makes_classDeclaration (name : String) (members : List NodeId) :
    Makes members piece (classDeclaration name members) := by
  intro t held mid building
  have named := makes_identifier name t (members ++ held) mid building
  have isIdentifier : ((identifier name mid).2.node (identifier name mid).1).isIdentifier =
      true := by
    rw [show (identifier name mid).1 = ⟨mid.size⟩ from rfl, identifier, node_alloc, if_pos rfl]
    rfl
  refine Building.alloc (.classDef ⟨some _, none, members, true⟩) named ?_ ?_
  · intro part isPlace child isHeld
    have isName : child = (identifier name mid).1 := by
      simp only [List.mem_cons, List.not_mem_nil, or_false] at isPlace
      rcases isPlace with rfl | rfl | rfl <;> simp only [Node.part, List.not_mem_nil] at isHeld
      rwa [Option.toList_some, List.mem_singleton] at isHeld
    rw [isName]
    exact .of_identifier isIdentifier
  · simp [Node.part]

/-! ### Values -/

theorem makes_encodeProperty (key : String) (value : NodeId) :
    Makes [value] piece (encodeProperty key value) :=
  fun t => (workshop_building t).encodeProperty key value

theorem makes_encode (value : Value) : Makes [] piece value.encode :=
  fun t => (workshop_building t).encode value

theorem makes_encodeItems (items : List Value) :
    Makes [] (fun made => made) (Value.encodeItems items) :=
  fun t => (workshop_building t).encodeItems items

theorem makes_encodeEntries (entries : List (String × Value)) :
    Makes [] (fun made => made) (Value.encodeEntries entries) :=
  fun t => (workshop_building t).encodeEntries entries

/-! ### Where new pieces are -/

variable {after : Tree} {root : NodeId}

theorem Grows.alike (grows : t.Grows after) (linked : t.Linked) : t.Alike after t.Allocated where
  tag allocated := by rw [grows.node allocated]
  parent? allocated := grows.parent? allocated
  above _ held := linked.allocated_parent held
  holds part _ held := by rw [holds, holds, grows.node (linked.allocated_parent held)]

/-- Only old nodes are below old ones. -/
theorem Grows.isWithin (grows : t.Grows after) (linked : t.Linked) (allocated : t.Allocated root) :
    after.isWithin id root = t.isWithin id root := by
  by_cases inside : t.Allocated id
  · exact (grows.alike linked).isWithin linked grows.linked inside root
  · have outside : t.isWithin id root = false := by
      rw [Bool.eq_false_iff, ne_eq, isWithin_of_root (Linked.parent?_of_not_allocated inside)]
      rintro rfl
      exact inside allocated
    rw [outside, Bool.eq_false_iff]
    intro within
    induction id using grows.linked.induction with
    | step id induction =>
      have different : id ≠ root := by
        rintro rfl
        exact inside allocated
      cases held : after.parent? id with
      | none => exact different ((isWithin_of_root held).mp within)
      | some parent =>
        have isNew := grows.not_allocated_parent linked inside held
        rw [grows.linked.isWithin_parent held different] at within
        refine induction parent held isNew ?_ within
        rw [Bool.eq_false_iff, ne_eq, isWithin_of_root (Linked.parent?_of_not_allocated isNew)]
        rintro rfl
        exact isNew allocated

/-- Only old nodes are above old ones. -/
theorem Grows.not_isWithin_new (grows : t.Grows after) (linked : t.Linked)
    (allocated : t.Allocated id) (isNew : ¬t.Allocated root) : after.isWithin id root = false := by
  rw [(grows.alike linked).isWithin linked grows.linked allocated, Bool.eq_false_iff]
  intro within
  rcases isWithin_iff.mp within with rfl | above
  · exact isNew allocated
  · exact isNew (linked.allocated_of_mem_ancestors above)

end Tree

end Unravel
