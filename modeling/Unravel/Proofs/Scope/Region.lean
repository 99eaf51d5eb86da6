import Unravel.Proofs.Program.Meaning
import Unravel.Proofs.Scope.Incoming

/-!
The regions around a place, and what a name means there. A region is a node that opens a scope; the
discriminant of a switch statement lies outside the statement's region.

A name is looked up in all scopes around the first region (`Tree.Linked.mem_beyond_iff`). So a
function in a discriminant sees the cases, which are no region of its own uses (`Tree.Intrudes`).
Main statement: a use is bound by the innermost region that declares its name exactly where no
switch statement intrudes (`Tree.Linked.bindsLexically_iff`).
-/

namespace Unravel

namespace Tree

variable {t after : Tree} {id inner outer region root : NodeId} {name : String} {d : Declaration}

/-! ### The scopes in sight -/

/--
The scopes in which a node is looked up that neither opens a scope nor is the name of a function. -/
def beyond (t : Tree) (id : NodeId) : List NodeId :=
  (t.scopeAmong? (some id) (t.ancestors id)).toList.flatMap t.scopesFrom

theorem sight_eq_beyond (free : ¬t.Binds id) (closed : t.opens id = false) :
    t.sight id = t.beyond id := by
  rw [sight, scopeNode?_eq free closed, beyond]

theorem scopesFrom_of_opens (opens : t.opens id = true) :
    t.scopesFrom id = id :: t.scopesAround id := by
  rw [scopesFrom, List.filter_cons, if_pos opens, scopesAround]

theorem scopesFrom_of_closed (closed : t.opens id = false) :
    t.scopesFrom id = t.scopesAround id := by
  rw [scopesFrom, List.filter_cons, closed, scopesAround, if_neg Bool.false_ne_true]

theorem Linked.scopesAround_of_parent (linked : t.Linked) (held : t.parent? id = some outer) :
    t.scopesAround id = t.scopesFrom outer := by
  rw [scopesAround, linked.ancestors_of_parent held, scopesFrom]

theorem Linked.mem_beyond (linked : t.Linked) (member : outer ∈ t.beyond id) :
    outer ∈ t.ancestors id ∧ t.opens outer = true := by
  obtain ⟨place, found, above⟩ := List.mem_flatMap.mp member
  rw [Option.mem_toList] at found
  obtain ⟨within, opens⟩ := mem_scopesFrom.mp above
  have first := (mem_of_scopeAmong? found).1
  refine ⟨?_, opens⟩
  rcases isWithin_iff.mp within with rfl | further
  · exact first
  · exact linked.mem_ancestors_trans further first

theorem Linked.beyond_of_parent (linked : t.Linked) (held : t.parent? id = some outer) :
    t.beyond id = if t.opens outer && !t.holds outer id .discriminant then t.scopesFrom outer
      else t.beyond outer := by
  rw [beyond, linked.ancestors_of_parent held, scopeAmong?, Option.any_some]
  split
  · simp
  · rfl

theorem Alike.beyond {shared : NodeId → Prop} (alike : t.Alike after shared) (linked : t.Linked)
    (afterLinked : after.Linked) (isShared : shared id) : after.beyond id = t.beyond id := by
  rw [Tree.beyond, alike.ancestors linked afterLinked isShared,
    alike.scopeAmong?_ancestors linked isShared, Tree.beyond]
  cases found : t.scopeAmong? (some id) (t.ancestors id) with
  | none => rfl
  | some node =>
    have nodeShared := shared_of_mem_ancestors linked alike isShared (mem_of_scopeAmong? found).1
    simp [alike.scopesFrom linked afterLinked nodeShared]

theorem Linked.meaning?_of_isUse (linked : t.Linked) (attached : t.isWithin id root = true)
    (spelled : (t.node id).identifier? = some name) (isUse : (t.role id).isUse = true) :
    (t.lexicon root).meaning? id = (t.lexicon root).look? (t.beyond id) name := by
  have closed : t.opens id = false := by
    apply opens_of_isSilent
    cases shape : t.node id <;> simp_all [Node.identifier?, Node.isSilent]
  have use : (t.lexicon root).uses id = some ⟨name, t.role id, t.beyond id⟩ := by
    rw [← sight_eq_beyond (linked.not_binds_of_isUse isUse) closed]
    simp only [lexicon, attached, if_true, useAt?, spelled, Option.bind_some, isUse]
  rw [Lexicon.meaning?, use]

/-! ### Regions -/

/-- A node opens a region around another one. What stands in the discriminant of a switch statement
stands outside the statement's region. -/
structure InRegion (t : Tree) (region id : NodeId) : Prop where
  opens : t.opens region = true
  within : t.isWithin id region = true
  apart : ∀ discriminant ∈ (t.node region).part .discriminant, t.isWithin id discriminant = false

/-- A region declares a name. -/
def Declares (t : Tree) (root region : NodeId) (name : String) : Prop :=
  ∃ d ∈ (t.lexicon root).declared, d.owner = region ∧ d.name = name

structure Innermost (t : Tree) (root region id : NodeId) (name : String) : Prop where
  around : t.InRegion region id
  declares : t.Declares root region name
  least : ∀ other, t.InRegion other id → t.Declares root other name → t.isWithin region other = true

/-- A switch statement comes before the regions of a use in its discriminant: a function in the
discriminant has the use in it, and nothing between the use and the statement declares the name. -/
structure Intrudes (t : Tree) (root switch id : NodeId) (name : String)
    (discriminant : NodeId) : Prop where
  held : discriminant ∈ (t.node switch).part .discriminant
  within : t.isWithin id discriminant = true
  nested : ∃ region, t.InRegion region id ∧ t.isWithin region discriminant = true
  declares : t.Declares root switch name
  free : ∀ region, t.InRegion region id → t.isWithin region discriminant = true →
    ¬t.Declares root region name

theorem binder?_isSome :
    ((t.lexicon root).binder? region name).isSome = true ↔ t.Declares root region name := by
  rw [Lexicon.binder?, List.find?_isSome, Declares]
  simp

theorem not_inRegion_of_discriminant (isDiscriminant : id ∈ (t.node outer).part .discriminant)
    (within : t.isWithin inner id = true) : ¬t.InRegion outer inner := by
  intro region
  have apart := region.apart id isDiscriminant
  rw [within] at apart
  cases apart

namespace Linked

variable (linked : t.Linked)

include linked

theorem inRegion_of_child (held : t.parent? id = some outer) (opens : t.opens outer = true)
    (notDiscriminant : id ∉ (t.node outer).part .discriminant)
    (within : t.isWithin inner id = true) :
    t.InRegion outer inner where
  opens := opens
  within := linked.isWithin_trans within (linked.isWithin_of_parent held)
  apart := by
    intro discriminant isHeld
    rw [Bool.eq_false_iff]
    intro inside
    have same := linked.eq_of_isWithin_children (linked.parent?_of_mem_part isHeld)
      held inside within
    rw [same] at isHeld
    exact notDiscriminant isHeld

theorem mem_beyond_of_inner_iff (within : t.isWithin inner id = true) : outer ∈ t.beyond id ↔
    t.opens outer = true ∧
      ∃ region ∈ t.ancestors id, t.InRegion region inner ∧ t.isWithin region outer = true := by
  induction id using linked.induction with
  | step id induction =>
    cases held : t.parent? id with
    | none => simp [beyond, ancestors_of_root held, scopeAmong?]
    | some above =>
      have withinAbove := linked.isWithin_trans within (linked.isWithin_of_parent held)
      rw [linked.beyond_of_parent held, linked.ancestors_of_parent held]
      split
      · rename_i first
        rw [Bool.and_eq_true, Bool.not_eq_true', holds, decide_eq_false_iff_not] at first
        have around := linked.inRegion_of_child held first.1 first.2 within
        rw [mem_scopesFrom, and_comm]
        refine and_congr_right
          fun _ => ⟨fun isAround => ⟨above, List.mem_cons_self, around, isAround⟩, ?_⟩
        rintro ⟨region, member, -, isAround⟩
        have aboveRegion := isWithin_iff.mpr ((List.mem_cons.mp member).imp_left Eq.symm)
        exact linked.isWithin_trans aboveRegion isAround
      · rename_i skipped
        -- The node above is no region of the node further in.
        have notAround : ¬t.InRegion above inner := by
          intro region
          rw [region.opens, Bool.true_and, Bool.not_eq_true', Bool.not_eq_false, holds,
            decide_eq_true_eq] at skipped
          exact not_inRegion_of_discriminant skipped within region
        rw [induction above held withinAbove]
        refine and_congr_right fun _ => exists_congr fun region => ?_
        rw [List.mem_cons, or_and_right, or_iff_right]
        rintro ⟨rfl, region, -⟩
        exact notAround region

theorem mem_beyond_iff (closed : t.opens id = false) : outer ∈ t.beyond id ↔
    t.opens outer = true ∧ ∃ region, t.InRegion region id ∧ t.isWithin region outer = true := by
  rw [linked.mem_beyond_of_inner_iff isWithin_self]
  refine and_congr_right fun _ => exists_congr fun region => and_iff_right_of_imp fun around => ?_
  rcases isWithin_iff.mp around.1.within with rfl | member
  · have opens := around.1.opens
    rw [closed] at opens
    cases opens
  · exact member

theorem mem_beyond_of_inRegion (closed : t.opens id = false) (around : t.InRegion region id) :
    region ∈ t.beyond id :=
  (linked.mem_beyond_iff closed).mpr ⟨around.opens, region, around, isWithin_self⟩

/-! ### The nearest declaration -/

theorem pairwise_ancestors (id : NodeId) :
    (id :: t.ancestors id).Pairwise fun a b => t.isWithin a b = true := by
  induction id using linked.induction with
  | step id induction =>
    refine List.pairwise_cons.mpr ⟨fun above member => isWithin_iff.mpr (.inr member), ?_⟩
    cases held : t.parent? id with
    | none => simp [ancestors_of_root held]
    | some parent =>
      rw [linked.ancestors_of_parent held]
      exact induction parent held

theorem pairwise_beyond (id : NodeId) :
    (t.beyond id).Pairwise fun a b => t.isWithin a b = true := by
  rw [beyond]
  cases t.scopeAmong? (some id) (t.ancestors id) with
  | none => exact .nil
  | some first =>
    rw [Option.toList_some, List.flatMap_singleton]
    exact (linked.pairwise_ancestors first).sublist List.filter_sublist

end Linked

theorem nearest_of_look? {places : List NodeId}
    (nested : places.Pairwise fun a b => t.isWithin a b = true)
    (found : (t.lexicon root).look? places name = some d) :
    d.owner ∈ places ∧ (t.lexicon root).binder? d.owner name = some d ∧
      ∀ other ∈ places, t.Declares root other name → t.isWithin d.owner other = true := by
  induction places with
  | nil => cases found
  | cons first rest induction =>
    rw [List.pairwise_cons] at nested
    rw [Lexicon.look?, List.findSome?_cons] at found
    cases bound : (t.lexicon root).binder? first name with
    | some e =>
      rw [bound, Option.some.injEq] at found
      subst found
      have owner := (Lexicon.binder?_some bound).2.1
      rw [owner]
      refine ⟨List.mem_cons_self, bound, fun other member _ => ?_⟩
      rcases List.mem_cons.mp member with rfl | later
      · exact isWithin_self
      · exact nested.1 other later
    | none =>
      rw [bound] at found
      obtain ⟨member, isBound, least⟩ := induction nested.2 found
      refine ⟨List.mem_cons_of_mem first member, isBound, fun other among declares => ?_⟩
      rcases List.mem_cons.mp among with rfl | later
      · rw [← binder?_isSome, bound] at declares
        cases declares
      · exact least other later declares

theorem look?_eq_none_iff {places : List NodeId} : (t.lexicon root).look? places name = none ↔
    ∀ place ∈ places, ¬t.Declares root place name := by
  simp only [Lexicon.look?, List.findSome?_eq_none_iff, ← binder?_isSome,
    Option.not_isSome_iff_eq_none]

theorem Linked.exists_innermost (linked : t.Linked) (closed : t.opens id = false)
    (around : t.InRegion region id) (declares : t.Declares root region name) :
    ∃ inmost, t.Innermost root inmost id name := by
  classical
  have nested := (linked.pairwise_beyond id).sublist
    (List.filter_sublist (p := fun region => decide (t.InRegion region id)))
  have mem_regions {other : NodeId} :
      other ∈ (t.beyond id).filter (fun region => decide (t.InRegion region id)) ↔
        t.InRegion other id := by
    rw [List.mem_filter, decide_eq_true_eq]
    exact and_iff_right_of_imp (linked.mem_beyond_of_inRegion closed)
  cases found :
    (t.lexicon root).look? ((t.beyond id).filter fun region => decide (t.InRegion region id))
      name with
  | none => exact absurd declares (look?_eq_none_iff.mp found region (mem_regions.mpr around))
  | some d =>
    obtain ⟨member, bound, least⟩ := nearest_of_look? nested found
    refine ⟨d.owner, mem_regions.mp member, binder?_isSome.mp (by rw [bound]; rfl), ?_⟩
    exact fun other isAround => least other (mem_regions.mpr isAround)

/-! ### Intruding statements -/

namespace Linked

variable (linked : t.Linked)

include linked

theorem isWithin_discriminant {switch discriminant : NodeId}
    (held : discriminant ∈ (t.node switch).part .discriminant)
    (within : t.isWithin id discriminant = true) (around : t.InRegion region id)
    (inside : t.isWithin region switch = true) :
    t.isWithin region discriminant = true := by
  have parent := linked.parent?_of_mem_part held
  rcases linked.isWithin_linear around.within within with further | between
  · exact further
  · by_cases same : discriminant = region
    · rw [same, isWithin_self]
    · rw [linked.isWithin_parent parent same] at between
      have isSwitch := linked.isWithin_antisymm between inside
      rw [← isSwitch] at around
      exact absurd around (not_inRegion_of_discriminant held within)

theorem inRegion_or_intrudes (closed : t.opens id = false)
    (found : (t.lexicon root).look? (t.beyond id) name = some d) :
    t.InRegion d.owner id ∨ ∃ discriminant, t.Intrudes root d.owner id name discriminant := by
  obtain ⟨member, bound, least⟩ := nearest_of_look? (linked.pairwise_beyond id) found
  obtain ⟨opens, region, around, inside⟩ := (linked.mem_beyond_iff closed).mp member
  have within := linked.isWithin_trans around.within inside
  by_cases apart : ∀ discriminant ∈ (t.node d.owner).part .discriminant,
    t.isWithin id discriminant = false
  · exact .inl ⟨opens, within, apart⟩
  · simp only [not_forall, Bool.not_eq_false] at apart
    obtain ⟨discriminant, held, below⟩ := apart
    refine .inr ⟨discriminant, held, below,
      ⟨region, around, linked.isWithin_discriminant held below around inside⟩,
      binder?_isSome.mp (by rw [bound]; rfl), fun other isAround further declares => ?_⟩
    -- A region in the discriminant that declares the name would be nearer.
    have parent := linked.parent?_of_mem_part held
    have nearer := least other (linked.mem_beyond_of_inRegion closed isAround) declares
    have same := linked.isWithin_antisymm (linked.isWithin_trans nearer further)
      (linked.isWithin_of_parent parent)
    rw [← same] at parent
    exact linked.parent?_ne_self d.owner parent

theorem mem_beyond_of_intrudes {switch discriminant : NodeId} (isTop : t.IsTop root)
    (closed : t.opens id = false) (intrudes : t.Intrudes root switch id name discriminant) :
    switch ∈ t.beyond id := by
  obtain ⟨e, declared, rfl, -⟩ := intrudes.declares
  obtain ⟨region, around, within⟩ := intrudes.nested
  have opens := (linked.scopes_owner isTop declared).2.2.2
  have above := linked.isWithin_of_parent (linked.parent?_of_mem_part intrudes.held)
  exact (linked.mem_beyond_iff closed).mpr ⟨opens, region, around,
    linked.isWithin_trans within above⟩

theorem not_inRegion_of_intrudes {switch discriminant : NodeId} (isTop : t.IsTop root)
    (closed : t.opens id = false) (intrudes : t.Intrudes root switch id name discriminant)
    (found : (t.lexicon root).look? (t.beyond id) name = some d) : ¬t.InRegion d.owner id := by
  intro around
  obtain ⟨-, bound, least⟩ := nearest_of_look? (linked.pairwise_beyond id) found
  have inSight := linked.mem_beyond_of_intrudes isTop closed intrudes
  have inside := least switch inSight intrudes.declares
  exact intrudes.free d.owner around
    (linked.isWithin_discriminant intrudes.held intrudes.within around inside)
    (binder?_isSome.mp (by rw [bound]; rfl))

end Linked

end Tree

namespace Scopes

variable {s : Scopes} {t : Tree} {id root : NodeId} {name : String}

/-- A use of a name is bound by what declares the name in the innermost region around it that does,
and is unbound if no region around it does. -/
structure BindsLexically (s : Scopes) (t : Tree) (root id : NodeId) (name : String) : Prop where
  bound : ∀ region, t.Innermost root region id name → ∃ d binding,
    (t.lexicon root).binder? region name = some d ∧ s.bindingOf? id = some binding ∧
      s.Stands binding d
  unbound : s.bindingOf? id = none ↔ ∀ region, t.InRegion region id → ¬t.Declares root region name

theorem opens_of_identifier? (spelled : (t.node id).identifier? = some name) :
    t.opens id = false := by
  refine Tree.opens_of_isSilent ?_
  cases shape : t.node id <;> simp_all [Node.identifier?, Node.isSilent]

theorem meaning?_of_isUse (linked : t.Linked) (attached : t.isWithin id root = true)
    (spelled : (t.node id).identifier? = some name) (isUse : (t.role id).isUse = true) :
    (t.lexicon root).meaning? id = (t.lexicon root).look? (t.beyond id) name := by
  have closed := opens_of_identifier? spelled
  have uses : (t.lexicon root).uses id = some ⟨name, t.role id, t.sight id⟩ := by
    simp [Tree.lexicon, attached, Tree.useAt?, spelled, isUse]
  simp only [Lexicon.meaning?, uses, Tree.sight_eq_beyond (linked.not_binds_of_isUse isUse) closed]

theorem Describes.bindsLexically_iff (describes : s.Describes (t.lexicon root)) (linked : t.Linked)
    (isTop : t.IsTop root) (attached : t.isWithin id root = true)
    (spelled : (t.node id).identifier? = some name) (isUse : (t.role id).isUse = true) :
    s.BindsLexically t root id name ↔
      ∀ switch discriminant, ¬t.Intrudes root switch id name discriminant := by
  have closed := opens_of_identifier? spelled
  have belongs := describes.occurrences id
  rw [meaning?_of_isUse linked attached spelled isUse] at belongs
  change s.bindingOf? id = _ at belongs
  cases found : (t.lexicon root).look? (t.beyond id) name with
  | none =>
    -- Nothing in sight declares the name, neither a region nor a statement that intrudes.
    rw [found, Option.bind_none] at belongs
    have nothing := Tree.look?_eq_none_iff.mp found
    refine iff_of_true ⟨?_, ?_⟩ ?_
    · intro region inmost
      exact absurd inmost.declares
        (nothing region (linked.mem_beyond_of_inRegion closed inmost.around))
    · exact iff_of_true belongs
        fun region around => nothing region (linked.mem_beyond_of_inRegion closed around)
    · intro switch discriminant intrudes
      exact nothing switch (linked.mem_beyond_of_intrudes isTop closed intrudes) intrudes.declares
  | some d =>
    obtain ⟨-, bound, least⟩ := Tree.nearest_of_look? (linked.pairwise_beyond id) found
    obtain ⟨binding, isFound, stands⟩ := describes.found _ _ _ (Lexicon.binder?_self bound)
    rw [found, Option.bind_some, isFound] at belongs
    constructor
    · intro lexically switch discriminant intrudes
      obtain ⟨region, around, declares⟩ :
        ∃ region, t.InRegion region id ∧ t.Declares root region name := by
        by_contra nothing
        push Not at nothing
        rw [lexically.unbound.mpr nothing] at belongs
        cases belongs
      obtain ⟨inmost, isInmost⟩ := linked.exists_innermost closed around declares
      obtain ⟨e, other, isBound, belongsTo, standsFor⟩ := lexically.bound inmost isInmost
      rw [belongs, Option.some.injEq] at belongsTo
      subst belongsTo
      have owner := describes.owner_unique stands.scope standsFor.scope
      rw [(Lexicon.binder?_some isBound).2.1] at owner
      refine linked.not_inRegion_of_intrudes isTop closed intrudes found ?_
      rw [owner]
      exact isInmost.around
    · intro free
      have around : t.InRegion d.owner id := by
        refine (linked.inRegion_or_intrudes closed found).resolve_right ?_
        rintro ⟨discriminant, intrudes⟩
        exact free d.owner discriminant intrudes
      have declares : t.Declares root d.owner name := Tree.binder?_isSome.mp (by rw [bound]; rfl)
      refine ⟨fun region inmost => ?_, iff_of_false ?_ ?_⟩
      · have inside := inmost.least d.owner around declares
        have nearer := least region (linked.mem_beyond_of_inRegion closed inmost.around)
          inmost.declares
        rw [linked.isWithin_antisymm inside nearer]
        exact ⟨d, binding, bound, belongs, stands⟩
      · rw [belongs]
        exact Option.some_ne_none binding
      · exact fun nothing => nothing d.owner around declares

/--
The table of a tree binds each use lexically, but for the uses at which a switch statement intrudes.
-/
theorem exists_bindsLexically_iff (linked : t.Linked) (isTop : t.IsTop root)
    (opens : t.opens root = true) :
    ∃ s, ofTree t root = .ok s ∧ ∀ id name, t.isWithin id root = true →
      (t.node id).identifier? = some name → (t.role id).isUse = true →
        (s.BindsLexically t root id name ↔
          ∀ switch discriminant, ¬t.Intrudes root switch id name discriminant) := by
  obtain ⟨s, made⟩ : ∃ s, ofTree t root = .ok s := by
    rw [ofTree, if_neg]
    · exact ⟨_, rfl⟩
    · rw [Bool.not_eq_true, Option.isNone_eq_false_iff, ← Tree.opens, opens]
  refine ⟨s, made, fun id name attached spelled isUse => ?_⟩
  exact (describes_ofTree linked isTop made).bindsLexically_iff linked isTop attached spelled isUse

/-- The tree of `switch (function () { return x; }) { case x: let x; }`. -/
def seenFromDiscriminant : Tree :=
  ⟨#[⟨.identifier "x", some ⟨1⟩⟩, ⟨.return_ (some ⟨0⟩), some ⟨2⟩⟩, ⟨.block [⟨1⟩], some ⟨3⟩⟩,
    ⟨.function ⟨.expression, none, [], ⟨2⟩, false, false⟩, some ⟨9⟩⟩, ⟨.identifier "x", some ⟨8⟩⟩,
    ⟨.identifier "x", some ⟨6⟩⟩, ⟨.variableDeclarator ⟨5⟩ none, some ⟨7⟩⟩,
    ⟨.variableDeclaration .let_ [⟨6⟩], some ⟨8⟩⟩, ⟨.switchCase (some ⟨4⟩) [⟨7⟩], some ⟨9⟩⟩,
    ⟨.switch ⟨3⟩ [⟨8⟩], some ⟨10⟩⟩, ⟨.program [⟨9⟩], none⟩]⟩

theorem linked_seenFromDiscriminant :
    seenFromDiscriminant.Linked := Tree.linked_of_checks (by decide)

theorem isTop_seenFromDiscriminant : seenFromDiscriminant.IsTop ⟨10⟩ := ⟨by decide, by decide⟩

theorem declared_seenFromDiscriminant : (seenFromDiscriminant.lexicon ⟨10⟩).declared =
    [⟨⟨9⟩, "x", .let_, ⟨6⟩, ⟨5⟩⟩] := by decide

theorem eq_switch_of_declares {region : NodeId}
    (declares : seenFromDiscriminant.Declares ⟨10⟩ region name) :
    region = ⟨9⟩ := by
  obtain ⟨d, member, rfl, -⟩ := declares
  rw [declared_seenFromDiscriminant, List.mem_singleton] at member
  rw [member]

/-- The test of the case is bound by the case. -/
theorem exists_bindsLexically_seenFromDiscriminant : ∃ s, ofTree seenFromDiscriminant ⟨10⟩ = .ok s ∧
    s.BindsLexically seenFromDiscriminant ⟨10⟩ ⟨4⟩ "x" := by
  obtain ⟨s, made, lexically⟩ := exists_bindsLexically_iff linked_seenFromDiscriminant
    isTop_seenFromDiscriminant (by decide)
  refine ⟨s, made, (lexically ⟨4⟩ "x" (by decide) rfl (by decide)).mpr ?_⟩
  intro switch discriminant intrudes
  rw [eq_switch_of_declares intrudes.declares] at intrudes
  obtain rfl : discriminant = ⟨3⟩ := List.mem_singleton.mp intrudes.held
  exact absurd intrudes.within (by decide)

/-- The function in the discriminant sees the case, in no region of which it stands. -/
theorem exists_not_bindsLexically : ∃ s, ofTree seenFromDiscriminant ⟨10⟩ = .ok s ∧
    (∃ binding, s.bindingOf? ⟨0⟩ = some binding ∧ (s.binding binding).identifier = ⟨5⟩) ∧
      (∀ region, seenFromDiscriminant.InRegion region ⟨0⟩ →
        ¬seenFromDiscriminant.Declares ⟨10⟩ region "x") ∧
        ¬s.BindsLexically seenFromDiscriminant ⟨10⟩ ⟨0⟩ "x" := by
  obtain ⟨s, made⟩ : ∃ s, ofTree seenFromDiscriminant ⟨10⟩ = .ok s := ⟨_, rfl⟩
  have describes := describes_ofTree linked_seenFromDiscriminant isTop_seenFromDiscriminant made
  have means : (seenFromDiscriminant.lexicon ⟨10⟩).meaning? ⟨0⟩ =
      some ⟨⟨9⟩, "x", .let_, ⟨6⟩, ⟨5⟩⟩ := by decide
  obtain ⟨binding, found, stands⟩ := describes.found _ _ _ (Lexicon.meaning?_some means)
  have belongs := describes.occurrences ⟨0⟩
  rw [means, Option.bind_some, found] at belongs
  have nothing (region : NodeId) (around : seenFromDiscriminant.InRegion region ⟨0⟩) :
      ¬seenFromDiscriminant.Declares ⟨10⟩ region "x" := by
    intro declares
    rw [eq_switch_of_declares declares] at around
    have isDiscriminant : (⟨3⟩ : NodeId) ∈ (seenFromDiscriminant.node ⟨9⟩).part .discriminant := by
      decide
    exact Tree.not_inRegion_of_discriminant isDiscriminant (by decide) around
  refine ⟨s, made, ⟨binding, belongs, stands.identifier⟩, nothing, fun lexically => ?_⟩
  have unbound := lexically.unbound.mpr nothing
  rw [bindingOf?, belongs] at unbound
  cases unbound

end Scopes

end Unravel
