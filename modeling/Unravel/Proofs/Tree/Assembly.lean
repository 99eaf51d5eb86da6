import Unravel.Proofs.Tree.Copy
import Unravel.Proofs.Tree.Edit
import Unravel.Value.Encode

/-!
Putting pieces of a tree together. While that goes on, the store only grows, and the finished pieces
hang nowhere (`Tree.Assembly`).

What is said of the pieces at hand may be more than that. Whatever it is, if it holds of them in any
order and new simple nodes may adopt them (`Tree.Workshop`), it holds of everything that is made by
the small constructors and of every value that is written down (`Tree.Workshop.encode`).
-/

namespace Unravel

def Node.isSimple {α : Type} : Node α → Bool
  | .identifier _ | .literal _ | .array _ | .object _ | .property .. | .member .. |
    .unary .. | .binary ..
    | .classMethod .. => true
  | _ => false

namespace Tree

variable {t mid after : Tree} {held held' used : List NodeId} {id root value old : NodeId}
  {node : Node NodeId} {α β : Type}

/-- A store has grown, and some pieces are at hand. -/
structure Assembly (t : Tree) (held : List NodeId) (mid : Tree) : Prop where
  grows : t.Grows mid
  nonempty : mid.size ≠ 0
  loose : ∀ id ∈ held, t.Loose mid id
  distinct : held.Nodup

namespace Assembly

theorem start (linked : t.Linked) (nonempty : t.size ≠ 0) : t.Assembly [] t :=
  ⟨.refl linked, nonempty, by simp, List.nodup_nil⟩

theorem perm (assembly : t.Assembly held mid) (same : held.Perm held') : t.Assembly held' mid :=
  ⟨assembly.grows, assembly.nonempty, fun id member => assembly.loose id (same.mem_iff.mpr member),
    same.nodup_iff.mp assembly.distinct⟩

theorem mono (assembly : t.Assembly held mid) (fewer : held'.Sublist held) : t.Assembly held' mid :=
  ⟨assembly.grows, assembly.nonempty, fun id member => assembly.loose id (fewer.subset member),
    assembly.distinct.sublist fewer⟩

theorem trans (first : t.Assembly held mid) (second : mid.Assembly held' after) :
    t.Assembly (held' ++ held) after where
  grows := first.grows.trans second.grows
  nonempty := second.nonempty
  loose id member := by
    rcases List.mem_append.mp member with isNew | isOld
    · exact (second.loose id isNew).since first.grows
    · exact (first.loose id isOld).mono second.grows
  distinct := by
    refine List.nodup_append.mpr ⟨second.distinct, first.distinct, fun a isNew b isOld => ?_⟩
    rintro rfl
    exact (second.loose a isNew).new (first.loose a isOld).allocated

theorem add (assembly : t.Assembly held mid) (grows : mid.Grows after)
    (loose : mid.Loose after id) :
    t.Assembly (id :: held) after :=
  have one : mid.Assembly [id] after :=
    ⟨grows, by have := grows.size; have := assembly.nonempty; omega,
      fun _ member => List.mem_singleton.mp member ▸ loose, List.nodup_singleton id⟩
  assembly.trans one

theorem alloc (node : Node NodeId) (assembly : t.Assembly (node.children ++ held) mid) :
    t.Assembly ((Tree.alloc node mid).1 :: held) (Tree.alloc node mid).2 := by
  have distinct := List.nodup_append.mp assembly.distinct
  have children : ∀ child ∈ node.children, t.Loose mid child :=
    fun child member => assembly.loose child (List.mem_append_left _ member)
  have allocated := fun child member => (children child member).allocated
  refine ⟨assembly.grows.alloc node children distinct.1, ?_, ?_, ?_⟩
  · rw [size_alloc]
    exact Nat.succ_ne_zero _
  · refine List.forall_mem_cons.mpr ⟨assembly.grows.loose_alloc node allocated, fun id member => ?_⟩
    have before := assembly.loose id (List.mem_append_right _ member)
    refine ⟨before.new, allocated_alloc.mpr (.inl before.allocated), ?_⟩
    rw [parent?_alloc allocated, if_neg, before.detached]
    exact fun isChild => distinct.2.2 id isChild id member rfl
  · refine List.nodup_cons.mpr ⟨fun member => ?_, distinct.2.1⟩
    exact mid.not_allocated_next (assembly.loose _ (List.mem_append_right _ member)).allocated

theorem copy (assembly : t.Assembly held mid) (root : NodeId) :
    t.Assembly ((Tree.copy root mid).1 :: held) (Tree.copy root mid).2 := by
  obtain ⟨copied, isCopy⟩ := assembly.grows.linked.copied assembly.nonempty root
  have added := assembly.add copied.grows copied.loose
  rwa [← isCopy] at added

theorem splice (assembly : t.Assembly (value :: held) mid) (linked : t.Linked) {parent : NodeId}
    (isHeld : mid.parent? old = some parent) (isNew : ¬t.Allocated old)
    (apart : mid.isWithin old value = false) :
    mid.Edited (mid.replace old value) old (some value) ∧
    t.Assembly held (mid.replace old value) := by
  have loose := assembly.loose value (List.mem_cons_self ..)
  have edited := edited_replace assembly.grows.linked isHeld loose.detached loose.allocated
  have possible : mid.Exchangeable old (some value) :=
    ⟨⟨parent, isHeld⟩, fun n same => Option.some.inj same ▸ loose.detached,
      fun n same => Option.some.inj same ▸ loose.allocated, apart⟩
  have distinct := List.nodup_cons.mp assembly.distinct
  refine ⟨edited, ⟨edited.linked assembly.grows.linked possible, ?_, fun {id} allocated => ?_,
    fun {id} allocated => ?_⟩, ?_, fun id member => ?_, distinct.2⟩
  · rw [edited.size]
    exact assembly.grows.size
  · rw [edited.kept, assembly.grows.node allocated]
    intro member
    rw [assembly.grows.node allocated] at member
    exact isNew (allocated_of_parent? (linked.mem_children.mp member))
  · rw [edited.parent?_of_ne, assembly.grows.parent? allocated]
    · rintro rfl
      exact isNew allocated
    · rintro same
      exact loose.new (Option.some.inj same ▸ allocated)
  · rw [edited.size]
    exact assembly.nonempty
  · have other := assembly.loose id (List.mem_cons_of_mem _ member)
    refine ⟨other.new, edited.allocated.mpr other.allocated, ?_⟩
    rw [edited.parent?_of_ne, other.detached]
    · rintro rfl
      rw [other.detached] at isHeld
      cases isHeld
    · intro same
      exact distinct.1 (Option.some.inj same ▸ member)

end Assembly

/-! ### Actions -/

/-- Where something is said of the pieces at hand, an action uses up some of them and yields others,
and all other pieces stay at hand. -/
def Yields (state : List NodeId → Tree → Prop) (used : List NodeId) (made : α → List NodeId)
    (action : StateM Tree α) : Prop :=
  ∀ held mid, state (used ++ held) mid → state (made (action mid).1 ++ held) (action mid).2

def Turns (state state' : List NodeId → Tree → Prop) (used : List NodeId) (made : α → List NodeId)
    (action : StateM Tree α) : Prop :=
  ∀ mid, state used mid → state' (made (action mid).1) (action mid).2

/-- The one piece that an action yields. -/
def piece (id : NodeId) : List NodeId := [id]

def Unordered (state : List NodeId → Tree → Prop) : Prop :=
  ∀ ⦃held held' : List NodeId⦄ ⦃mid : Tree⦄, state held mid → held.Perm held' → state held' mid

/-- What can be said of pieces in any order, and still can when a simple node has adopted some. -/
structure Workshop (state : List NodeId → Tree → Prop) : Prop where
  perm : Unordered state
  alloc : ∀ (node : Node NodeId), node.isSimple = true →
    Yields state node.children piece (Tree.alloc node)

variable {state : List NodeId → Tree → Prop} {made : α → List NodeId} {made' : β → List NodeId}
  {action : StateM Tree α}

theorem Turns.bind {state' state'' : List NodeId → Tree → Prop} {next : α → StateM Tree β}
    (first : Turns state state' used made action)
    (second : ∀ a, Turns state' state'' (made a) made' (next a)) :
    Turns state state'' used made' (action >>= next) :=
  fun mid holds => second _ _ (first mid holds)

namespace Yields

theorem turns (yields : Yields state used made action) : Turns state state used made action := by
  intro mid holds
  have result := yields [] mid (by rwa [List.append_nil])
  rwa [List.append_nil] at result

theorem bind {next : α → StateM Tree β} (first : Yields state used made action)
    (second : ∀ a, Yields state (made a) made' (next a)) :
    Yields state used made' (action >>= next) :=
  fun held mid holds => second _ held _ (first held mid holds)

theorem frame (yields : Yields state used made action) (rest : List NodeId) :
    Yields state (used ++ rest) (fun a => made a ++ rest) action := by
  intro held mid holds
  rw [List.append_assoc] at holds ⊢
  exact yields (rest ++ held) mid holds

theorem pure (unordered : Unordered state) {result : α} (same : used.Perm (made result)) :
    Yields state used made (pure result) :=
  fun _ _ holds => unordered holds (same.append_right _)

theorem mapM (unordered : Unordered state) {f : β → StateM Tree NodeId} (items : List β)
    (each : ∀ item ∈ items, Yields state [] piece (f item)) :
    Yields state [] (fun made => made) (items.mapM f) := by
  induction items with
  | nil => exact pure unordered .rfl
  | cons head rest induction =>
    rw [List.forall_mem_cons] at each
    rw [List.mapM_cons]
    refine bind each.1 fun first => bind ((induction each.2).frame (piece first)) fun others => ?_
    exact pure unordered (List.perm_append_singleton first others)

end Yields

namespace Workshop

variable (shop : Workshop state)

include shop

theorem pure {result : α} (same : used.Perm (made result)) : Yields state used made (pure result) :=
  .pure shop.perm same

theorem reorder (yields : Yields state used made action) {used' : List NodeId}
    (same : used'.Perm used) :
    Yields state used' made action :=
  fun held mid holds => yields held mid (shop.perm holds (same.append_right held))

theorem mapM {f : β → StateM Tree NodeId} (items : List β)
    (each : ∀ item ∈ items, Yields state [] piece (f item)) :
    Yields state [] (fun made => made) (items.mapM f) :=
  .mapM shop.perm items each

/-! ### Simple nodes -/

theorem identifier (name : String) : Yields state [] piece (Tree.identifier name) :=
  shop.alloc (.identifier name) rfl

theorem literal (value : Literal) : Yields state [] piece (Tree.alloc (.literal value)) :=
  shop.alloc (.literal value) rfl

theorem labelled {label : StateM Tree NodeId} {form : NodeId → Node NodeId} {under : NodeId}
    (labelMade : Yields state [] piece label) (simple : ∀ key, (form key).isSimple = true)
    (children : ∀ key, (form key).children.Perm [key, under]) :
    Yields state [under] piece (do Tree.alloc (form (← label))) := by
  refine .bind (labelMade.frame [under]) fun key => ?_
  exact shop.reorder (shop.alloc _ (simple key)) (children key).symm

theorem namedProperty (key : String) (value : NodeId) :
    Yields state [value] piece (Tree.namedProperty key value) :=
  shop.labelled (shop.identifier key) (fun _ => rfl) fun _ => .rfl

theorem quotedProperty (key : String) (value : NodeId) :
    Yields state [value] piece (Tree.quotedProperty key value) :=
  shop.labelled (shop.literal _) (fun _ => rfl) fun _ => .rfl

theorem dotMember (base : NodeId) (key : String) :
    Yields state [base] piece (Tree.dotMember base key) :=
  shop.labelled (shop.identifier key) (fun _ => rfl) fun label => .swap label base []

theorem memberFunction (kind : MethodKind) (name : String) (value : NodeId) :
    Yields state [value] piece (Tree.memberFunction kind name value) :=
  shop.labelled (shop.identifier name) (fun _ => rfl) fun _ => .rfl

/-! ### Values -/

theorem encodeNumber (x : Float) : Yields state [] piece (Tree.encodeNumber x) := by
  unfold Tree.encodeNumber
  split
  · exact shop.identifier "NaN"
  · have signed (magnitude : NodeId) : Yields state (piece magnitude) piece
        (if Double.isNegative x then Tree.alloc (.unary .minus magnitude)
          else Pure.pure magnitude) := by
      split
      · exact shop.alloc (.unary .minus magnitude) rfl
      · exact shop.pure .rfl
    dsimp only
    split
    · exact .bind (shop.identifier "Infinity") signed
    · exact .bind (shop.literal _) signed

theorem encodeProperty (key : String) (value : NodeId) :
    Yields state [value] piece (Tree.encodeProperty key value) := by
  unfold Tree.encodeProperty
  split
  · exact shop.namedProperty key value
  · exact shop.quotedProperty key value

mutual

theorem encode : (value : Value) → Yields state [] piece value.encode
  | .undefined => shop.identifier "undefined"
  | .null => shop.literal .null
  | .bool b => shop.literal (.boolean b)
  | .number x => shop.encodeNumber x
  | .string s => shop.literal (.string s none)
  | .array items => by
    rw [Value.encode]
    exact .bind (encodeItems items) fun elements => shop.alloc (.array elements) rfl
  | .object entries => by
    rw [Value.encode]
    exact .bind (encodeEntries entries) fun properties => shop.alloc (.object properties) rfl

theorem encodeItems :
    (items : List Value) → Yields state [] (fun made => made) (Value.encodeItems items)
  | [] => by
    rw [Value.encodeItems]
    exact shop.pure .rfl
  | item :: rest => by
    rw [Value.encodeItems]
    refine .bind (encode item)
      fun first => .bind ((encodeItems rest).frame (piece first)) fun others => ?_
    exact shop.pure (List.perm_append_singleton first others)

theorem encodeEntries : (entries : List (String × Value)) →
    Yields state [] (fun made => made) (Value.encodeEntries entries)
  | [] => by
    rw [Value.encodeEntries]
    exact shop.pure .rfl
  | (key, value) :: rest => by
    rw [Value.encodeEntries]
    refine .bind (encode value) fun encoded => .bind (shop.encodeProperty key encoded) fun first =>
      .bind ((encodeEntries rest).frame (piece first)) fun others => ?_
    exact shop.pure (List.perm_append_singleton first others)

end

end Workshop

/-- Pieces that hang nowhere may be put together in any way. -/
theorem workshop_assembly (t : Tree) : Workshop t.Assembly where
  perm _ _ _ assembly same := assembly.perm same
  alloc node _ _ _ assembly := assembly.alloc node

theorem yields_copy_assembly (root : NodeId) : Yields t.Assembly [] piece (Tree.copy root) :=
  fun _ _ assembly => assembly.copy root

theorem Assembly.forall₂_mapM {ι : Type} {f : ι → StateM Tree NodeId}
    (assembly : t.Assembly held mid) (items : List ι)
    (yields : ∀ item ∈ items, ∀ t : Tree, Yields t.Assembly [] piece (f item))
    (holds : ι → NodeId → Tree → Prop)
    (makes :
      ∀ item ∈ items, ∀ held mid, t.Assembly held mid → holds item (f item mid).1 (f item mid).2)
    (kept : ∀ {item : ι} {made : NodeId} {mid after : Tree}, mid.Linked → mid.Allocated made →
      mid.Grows after →
      holds item made mid → holds item made after) :
    List.Forall₂ (fun item made => holds item made (items.mapM f mid).2) items
      (items.mapM f mid).1 := by
  induction items generalizing held mid with
  | nil => exact .nil
  | cons item rest induction =>
    rw [List.forall_mem_cons] at yields makes
    have next := yields.1 t held mid assembly
    have made : (item :: rest).mapM f mid =
      ((f item mid).1 :: (rest.mapM f (f item mid).2).1, (rest.mapM f (f item mid).2).2) := by
      rw [List.mapM_cons]
      rfl
    have others := (workshop_assembly (f item mid).2).mapM rest
      (fun item member => yields.2 item member _) [] _ (.start next.grows.linked next.nonempty)
    rw [made]
    exact .cons
      (kept next.grows.linked (next.loose _ (List.mem_cons_self ..)).allocated others.grows
        (makes.1 held mid assembly)) (induction next yields.2 makes.2)

end Tree

end Unravel
