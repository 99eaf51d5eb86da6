import Unravel.Proofs.Program.Meaning
import Unravel.Proofs.Scope.Incoming
import Unravel.Proofs.Scope.Sealed
import Unravel.Proofs.Simplify.Exposed
import Unravel.Proofs.Simplify.Surely

/-!
Nodes that are taken apart: some parts of them stay, copied, in their place (`Program.Dismantled`).
What the parts that stay declare for the scopes around is declared again, and a name that stays
keeps a declaration unless the one that it had is in a part that goes
(`Program.Dismantled.named_or_dropped`).
-/

namespace Unravel

theorem Lexicon.exists_meaning? {l after : Lexicon} {keep keepAfter : NodeId → Bool} {id : NodeId}
    {d : Declaration} (same : after.restrict keepAfter = l.restrict keep) (regular : after.Regular)
    (stays : keep id = true) (staysAfter : keepAfter id = true) (means : l.meaning? id = some d)
    (redeclared : ∃ e ∈ after.declared, e.owner = d.owner ∧ e.name = d.name) :
    ∃ e, after.meaning? id = some e ∧ e.name = d.name := by
  have sameUse : after.uses id = l.uses id := by
    have whole := congrArg (Lexicon.uses · id) same
    simpa only [restrict, stays, staysAfter, if_true] using whole
  rw [meaning?] at means
  split at means
  · rename_i use isUse
    obtain ⟨place, inSight, bound⟩ := List.exists_of_findSome?_eq_some means
    obtain ⟨-, isOwner, named⟩ := binder?_some bound
    obtain ⟨e, declared, owner, name⟩ := redeclared
    obtain ⟨first, found⟩ := exists_binder? declared
    rw [owner, isOwner, name, named] at found
    have looked : (after.look? use.sight use.name).isSome = true :=
      List.findSome?_isSome_iff.mpr ⟨place, inSight, by rw [found]; rfl⟩
    obtain ⟨meant, isMeant⟩ := Option.isSome_iff_exists.mp looked
    refine ⟨meant, by rw [meaning?, sameUse, isUse]; exact isMeant, ?_⟩
    obtain ⟨_, -, bound⟩ := List.exists_of_findSome?_eq_some isMeant
    rw [(binder?_some bound).2.2, named]
  · rename_i noUse
    obtain ⟨own, found, bound⟩ := Option.bind_eq_some_iff.mp means
    obtain ⟨member, rfl⟩ := declarationOf?_some found
    have kept : own ∈ (l.restrict keep).declared := List.mem_filter.mpr ⟨member, stays⟩
    rw [← same] at kept
    have memberAfter := (List.mem_filter.mp kept).1
    obtain ⟨first, found⟩ := exists_binder? memberAfter
    refine ⟨first, by rw [regular.meaning?_of_declared memberAfter, found], ?_⟩
    rw [(binder?_some found).2.2, (binder?_some bound).2.2]

namespace Tree

variable {t after : Tree} {id outer old placed owner root parent : NodeId} {hoisted : Bool}
  {name : String} {d : Declaration}

/-- What a piece exposes it exposes wherever its nodes are the same. -/
theorem Exposes.congr (exposes : t.Exposes hoisted id name) (linked : t.Linked)
    (within : t.isWithin id outer = true)
    (same : ∀ {id}, t.isWithin id outer = true → after.node id = t.node id) :
    after.Exposes hoisted id name := by
  refine exposes.mirrored (P := fun id => t.isWithin id outer = true) (f := fun id => id)
    (fun isOwn member =>
      linked.isWithin_trans (linked.isWithin_of_parent (linked.mem_children.mp member)) isOwn)
    (fun isOwn => ?_) within
  rw [same isOwn]
  exact ⟨rfl, by simp, by simp⟩

theorem Linked.isWithin_place (linked : t.Linked) {place : NodeId} (allocated : t.Allocated place)
    (binds : t.Binds place) (member : id ∈ t.patternNames place) (within : t.isWithin id old = true)
    (free : ¬t.Binds old) : t.isWithin place old = true := by
  induction place, allocated using linked.induction_children with
  | step place allocated induction =>
    rw [linked.patternNames_eq allocated] at member
    split at member
    · exact List.mem_singleton.mp member ▸ within
    · obtain ⟨child, held, below⟩ := List.mem_flatMap.mp member
      have above := linked.parent?_of_mem_part held
      have childBinds : t.Binds child := .nested binds held
      exact (linked.isWithin_parent above fun same => free (by rwa [same] at childBinds)).symm.trans
        (induction child above childBinds below)

/--
What contains a declared name contains what declares it, unless it is a part of the pattern there.
-/
theorem Linked.isWithin_declaration (linked : t.Linked) (member : d ∈ t.declarationsAt id)
    (within : t.isWithin d.identifier old = true) (free : ¬t.Binds old) :
    t.isWithin d.declaration old = true := by
  have ofPlace {holder place : NodeId} {part : Part} (isPlace : part ∈ [.target, .name, .params])
      (held : place ∈ (t.node holder).part part) (within : t.isWithin place old = true) :
      t.isWithin holder old = true := by
    have binds : t.Binds place := .place isPlace held
    have different : place ≠ old := fun same => free (by rwa [same] at binds)
    exact (linked.isWithin_parent (linked.parent?_of_mem_part held) different).symm.trans within
  have ofNames {holder : NodeId} {part : Part} (isPlace : part ∈ [.target, .name, .params])
      (named : d.identifier ∈ t.namesIn holder part) : t.isWithin holder old = true := by
    obtain ⟨place, held, below⟩ := List.mem_flatMap.mp named
    exact ofPlace isPlace held
      (linked.isWithin_place (linked.allocated_of_mem_part held) (.place isPlace held)
        below within free)
  unfold declarationsAt at member
  split at member
  · obtain ⟨declarator, -, below⟩ := List.mem_flatMap.mp member
    obtain ⟨-, -, rfl, named, -⟩ := mem_declaredNames.mp below
    exact ofNames (by simp) named
  · rcases List.mem_append.mp member with member | member
    · split at member
      all_goals
        obtain ⟨-, -, same, named, -⟩ := mem_declaredNames.mp member
        rw [same]
        exact ofPlace (by simp) named within
    · obtain ⟨-, -, same, named, -⟩ := mem_declaredNames.mp member
      rw [same]
      exact ofNames (by simp) named
  · split at member
    · obtain ⟨-, -, same, named, -⟩ := mem_declaredNames.mp member
      rw [same]
      exact ofPlace (by simp) named within
    · cases member
  · cases member

theorem Alike.surrounding?_of_parent {shared : NodeId → Prop} (alike : t.Alike after shared)
    (linked : t.Linked) (afterLinked : after.Linked) (isShared : shared parent)
    (held : t.parent? old = some parent) (heldAfter : after.parent? placed = some parent) :
    after.surrounding? hoisted placed = t.surrounding? hoisted old := by
  rw [surrounding?, surrounding?, linked.scopesAround_of_parent held,
    afterLinked.scopesAround_of_parent heldAfter, alike.hoistTarget? linked afterLinked isShared,
    alike.scopesFrom linked afterLinked isShared]

end Tree

namespace Program

variable {p q after : Program} {mid grown : Tree} {target replacement old placed id owner : NodeId}
  {new : Option NodeId}
  {hoisted : Bool} {name : String} {d : Declaration} {kept : List NodeId}

structure Swap (p : Program) (mid : Tree) (old : NodeId) (new : Option NodeId)
    (q : Program) : Prop where
  unchanged : p.tree.Unchanged mid p.root
  size : p.tree.size ≤ mid.size
  linked : mid.Linked
  attached : p.tree.isWithin old p.root = true
  edited : mid.Edited q.tree old new
  possible : mid.Exchangeable old new
  root : q.root = p.root
  notNew : new ≠ some p.root

namespace Swap

variable (swap : p.Swap mid old new q) (rooted : p.Rooted)

include swap rooted

theorem isTop : mid.IsTop p.root :=
  ⟨Nat.lt_of_lt_of_le rooted.isTop.allocated swap.size,
    (swap.unchanged.parent? Tree.isWithin_self).trans rooted.isTop.top⟩

theorem isWithin (attached : p.tree.isWithin id p.root = true) (outer : NodeId) :
    mid.isWithin id outer = p.tree.isWithin id outer :=
  (swap.unchanged.alike rooted.linked rooted.isTop.top).isWithin rooted.linked swap.linked
    attached outer

theorem attached_mid :
    mid.isWithin old p.root = true := (swap.isWithin rooted swap.attached _).trans swap.attached

omit rooted in
theorem linked_after : q.tree.Linked := swap.edited.linked swap.linked swap.possible

theorem isTop_after : q.tree.IsTop q.root :=
  swap.root ▸ swap.edited.top_after swap.linked swap.possible (swap.isTop rooted)
    (swap.attached_mid rooted) swap.notNew

theorem lexicon_eq : mid.lexicon p.root = p.lexicon :=
  swap.unchanged.lexicon_eq rooted.linked swap.linked rooted.isTop (swap.isTop rooted).allocated

theorem restrict_lexicon : q.lexicon.restrict (fun id => !mid.isIncoming new id) =
    p.lexicon.restrict fun id => !mid.isWithin id old := by
  rw [← swap.lexicon_eq rooted, lexicon, swap.root]
  exact swap.edited.restrict_lexicon swap.linked swap.possible (swap.isTop rooted)
    (swap.attached_mid rooted) swap.notNew

theorem declared_of_outside (member : d ∈ p.lexicon.declared)
    (outside : p.tree.isWithin d.identifier old = false) :
    d ∈ q.lexicon.declared := by
  have attached := (rooted.linked.scopes_owner rooted.isTop member).1
  have kept : d ∈ (p.lexicon.restrict fun id => !mid.isWithin id old).declared :=
    List.mem_filter.mpr ⟨member, by simp [swap.isWithin rooted attached, outside]⟩
  rw [← swap.restrict_lexicon rooted] at kept
  exact (List.mem_filter.mp kept).1

theorem exists_meaning? (attached : p.tree.isWithin id p.root = true)
    (outside : p.tree.isWithin id old = false) (means : p.lexicon.meaning? id = some d)
    (redeclared : ∃ e ∈ q.lexicon.declared, e.owner = d.owner ∧ e.name = d.name) :
    ∃ e, q.lexicon.meaning? id = some e ∧ e.name = d.name := by
  refine Lexicon.exists_meaning? (swap.restrict_lexicon rooted)
    ((swap.linked_after).regular (swap.isTop_after rooted)) ?_ ?_ means redeclared
  · rw [swap.isWithin rooted attached, outside]
    rfl
  · rw [Bool.not_eq_true', Bool.eq_false_iff]
    intro incoming
    have apart := swap.possible.isWithin_root swap.linked (swap.isTop rooted) swap.notNew incoming
    rw [swap.isWithin rooted attached, attached] at apart
    cases apart

omit swap in
theorem exists_declared (swap : p.Swap mid old (some placed) q)
    (exposes : mid.Exposes hoisted placed name)
    (found : p.tree.surrounding? hoisted old = some owner) :
    ∃ e ∈ q.lexicon.declared, e.owner = owner ∧ e.name = name := by
  have linkedAfter := swap.linked_after
  have isTop := swap.isTop rooted
  obtain ⟨parent, held⟩ := swap.possible.held
  have heldBefore : p.tree.parent? old = some parent :=
    (swap.unchanged.parent? swap.attached).symm.trans held
  have heldAfter : q.tree.parent? placed = some parent := by
    rw [swap.edited.parent?, if_neg (swap.possible.ne_old rfl), if_pos rfl, held]
  have attachedParent : p.tree.isWithin parent p.root = true :=
    (swap.unchanged.alike rooted.linked rooted.isTop.top).above swap.attached heldBefore
  have sameAround : q.tree.surrounding? hoisted placed = some owner := by
    rw [(swap.edited.alike swap.linked swap.possible).surrounding?_of_parent swap.linked linkedAfter
        (swap.possible.stays_parent swap.linked held) held heldAfter,
      (swap.unchanged.alike rooted.linked rooted.isTop.top).surrounding?_of_parent rooted.linked
        swap.linked attachedParent heldBefore held, found]
  have exposed : q.tree.Exposes hoisted placed name := by
    refine exposes.congr swap.linked Tree.isWithin_self
      fun {inner} within => swap.edited.kept inner fun member => ?_
    -- What leaves is no part of what comes in.
    have apart := swap.possible.apart
    rw [Tree.isIncoming_some, swap.linked.isWithin_trans
      (swap.linked.isWithin_of_parent (swap.linked.mem_children.mp member)) within] at apart
    cases apart
  obtain ⟨holder, within, e, member, isOwner, named⟩ :=
    exposed.exists_declared linkedAfter sameAround
  refine ⟨e, (linkedAfter.mem_declared (swap.isTop_after rooted)).mpr ⟨holder, ?_, member⟩,
    isOwner, named⟩
  refine linkedAfter.isWithin_trans within ?_
  rw [swap.root, swap.edited.isWithin_root_iff swap.linked swap.possible isTop.top
    (swap.attached_mid rooted) swap.notNew]
  exact .inr (by rw [Tree.isIncoming_some, Tree.isWithin_self])

end Swap

/-- What is placed instead of a replacement exposes what the replacement does. -/
theorem exposes_of_unwrap (linked : p.tree.Linked)
    (exposes : p.tree.Exposes hoisted replacement name) :
    (p.unwrap target replacement).2.tree.Exposes hoisted (p.unwrap target replacement).1 name := by
  rcases unwrap_cases linked target replacement with
    same | ⟨inner, tree, same, -, block, held, edited, -⟩
  · rw [same]
    exact exposes
  · rw [same]
    -- A block exposes what its only statement does.
    have inside : p.tree.Exposes hoisted inner name := by
      cases exposes with
      | bound isDeclaration =>
        rw [show p.tree.node replacement = _ from block] at isDeclaration
        cases isDeclaration
      | named isDeclaration =>
        rw [show p.tree.node replacement = _ from block] at isDeclaration
        cases isDeclaration
      | deeper isChild _ inner =>
        rw [show p.tree.node replacement = _ from block] at isChild
        exact List.mem_singleton.mp isChild ▸ inner
    refine inside.congr linked Tree.isWithin_self fun {id} within => edited.kept id fun member => ?_
    exact linked.ne_of_isWithin_child (linked.mem_children.mp member) within rfl

theorem Replaced.swap (rooted : p.Rooted) (grows : p.tree.Grows grown)
    (replaced : Program.Replaced { p with tree := grown } target replacement after) :
    p.Swap (Program.unwrap { p with tree := grown } target replacement).2.tree target
      (some (Program.unwrap { p with tree := grown } target replacement).1) after := by
  have attached := replaced.attached
  have result := replaced.placed
  have unwrapped := result.unwrapped
  have unchanged := grows.unchanged rooted.linked rooted.isTop
  refine ⟨unchanged.trans rooted.linked grows.linked rooted.isTop.top unwrapped.unchanged,
    grows.size.trans (Nat.le_of_eq unwrapped.size.symm), unwrapped.linked,
    (unchanged.isWithin_root rooted.linked grows.linked rooted.isTop.top).symm.trans attached,
    result.edited, result.possible, result.root, fun same => ?_⟩
  have apart := unwrapped.apart
  rw [Option.some.inj same] at apart
  exact absurd (Tree.isWithin_self.symm.trans apart) (by simp)

theorem Taken.exists_swap (rooted : p.Rooted) (taken : p.Taken target after) :
    ∃ mid new, p.Swap mid (p.leaving target) new after := by
  have removed := taken.removed
  rcases removed.tree with ⟨edited, possible⟩ | ⟨edited, possible, -⟩
  · exact ⟨p.tree, none, ⟨fun _ => rfl, fun _ => rfl⟩, Nat.le_refl _, rooted.linked,
      taken.attached_leaving, edited, possible, removed.root, by simp⟩
  · obtain ⟨grows, loose, -⟩ := grows_withEmpty rooted.linked
    refine ⟨_, _, grows.unchanged rooted.linked rooted.isTop, grows.size, grows.linked,
      taken.attached_leaving, edited, possible, removed.root, fun same => ?_⟩
    exact loose.new (Option.some.inj same ▸ rooted.isTop.allocated)

/-- A node has been taken apart. What the kept parts of it declare for the scopes around is declared
again, and so is what is declared elsewhere; and where what a name means is declared again, it means
something. -/
structure Dismantled (p : Program) (target : NodeId) (kept : List NodeId) (q : Program) : Prop where
  loses : p.Loses target q
  redeclared : ∀ {d}, d ∈ p.lexicon.declared → p.tree.isWithin d.owner target = false →
    (p.tree.isWithin d.declaration target = true →
      ∃ part ∈ kept, p.tree.isWithin d.declaration part = true) →
      ∃ e ∈ q.lexicon.declared, e.owner = d.owner ∧ e.name = d.name
  means : ∀ {id d}, p.tree.isWithin id p.root = true → p.tree.isWithin id target = false →
    p.lexicon.meaning? id = some d →
    (∃ e ∈ q.lexicon.declared, e.owner = d.owner ∧ e.name = d.name) →
      ∃ e, q.lexicon.meaning? id = some e ∧ e.name = d.name

/--
A name that stays means a declaration of it, unless the one that it meant is in a part that is not
kept. -/
theorem Dismantled.named_or_dropped (dismantled : p.Dismantled target kept q) (rooted : p.Rooted)
    (attached : p.tree.isWithin id p.root = true) (still : q.tree.isWithin id q.root = true)
    (means : p.lexicon.meaning? id = some d) :
    (∃ e, q.lexicon.meaning? id = some e ∧ e.name = d.name) ∨
      (p.tree.isWithin d.declaration target = true ∧
        ∀ part ∈ kept, p.tree.isWithin d.declaration part = false) := by
  have linked := rooted.linked
  have allocated := linked.allocated_of_isWithin attached rooted.isTop.allocated
  obtain ⟨-, outside⟩ := dismantled.loses.lost allocated still
  rw [or_iff_not_imp_right]
  intro notDropped
  refine dismantled.means attached outside means (dismantled.redeclared
    (Lexicon.binder?_some (Lexicon.meaning?_some means)).1 ?_ fun within => ?_)
  · rw [Bool.eq_false_iff]
    intro within
    rw [linked.isWithin_trans (linked.isWithin_owner_of_meaning? rooted.isTop means)
      within] at outside
    cases outside
  · by_contra none
    exact notDropped ⟨within, fun part member => by
      rw [Bool.eq_false_iff]
      exact fun inside => none ⟨part, member, inside⟩⟩

theorem Swap.dismantled (swap : p.Swap mid target new q) (rooted : p.Rooted)
    (loses : p.Loses target q) (free : ¬p.tree.Binds target)
    (parts : ∀ part ∈ kept, p.tree.isWithin part target = true ∧ part ≠ target ∧
      ∀ holder, part ∉ (p.node holder).part .declarators)
    (brings : ∀ part ∈ kept, ∀ {hoisted name owner}, p.tree.Exposes hoisted part name →
      p.tree.surrounding? hoisted part = some owner → p.tree.isWithin owner target = false →
        ∃ placed, new = some placed ∧ mid.Exposes hoisted placed name) :
        p.Dismantled target kept q where
  loses := loses
  means attached outside means
    redeclared := swap.exists_meaning? rooted attached outside means redeclared
  redeclared {d} declared beyond isKept := by
    have linked := rooted.linked
    obtain ⟨holder, -, member⟩ := (linked.mem_declared rooted.isTop).mp declared
    cases inside : p.tree.isWithin d.identifier target with
    | false => exact ⟨d, swap.declared_of_outside rooted declared inside, rfl, rfl⟩
    | true =>
      obtain ⟨part, isPart, within⟩ := isKept (linked.isWithin_declaration member inside free)
      obtain ⟨partWithin, different, notDeclarator⟩ := parts part isPart
      have below : p.tree.isWithin holder part = true := by
        rcases Tree.declaration_cases member with ⟨same, -⟩ | ⟨held, -⟩
        · exact same ▸ within
        · refine
            (linked.isWithin_parent (linked.parent?_of_mem_part held) fun same => ?_).symm.trans
              within
          exact notDeclarator holder (same ▸ held)
      obtain ⟨hoisted, exposes, found⟩ := linked.exposes_of_declared member below partWithin
        different beyond
      obtain ⟨placed, rfl, brought⟩ := brings part isPart exposes found beyond
      exact swap.exists_declared rooted brought
        (linked.surrounding?_of_isWithin found partWithin beyond)

end Program

end Unravel
