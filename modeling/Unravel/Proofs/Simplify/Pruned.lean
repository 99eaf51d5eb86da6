import Mathlib.Data.Finset.Card
import Mathlib.Order.Bounds.Defs
import Unravel.Proofs.Simplify.Orderly
import Unravel.Proofs.Simplify.Surely

/-!
What goes away with unused declarations. The declarations that a run takes away are the least set
that is closed under two reasons to go (`Unused.Closed`): to lie in a declaration that goes, and to
be mentioned only in declarations that go. So the order in which a run meets the declarations does
not matter.

A run that has come to some program has taken away nothing but parts of declarations of every such
set (`Unused.Pruned`), and the last sweep has found nothing unused.
-/

namespace Unravel

namespace Program.Taken

variable {p after : Program} {target id : NodeId} (taken : p.Taken target after)

include taken

theorem node_eq_empty (isNew : ¬p.tree.Allocated id) (attached : after.tree.Allocated id) :
    after.node id = .empty := by
  rcases taken.removed.tree with ⟨edited, -⟩ | ⟨edited, -⟩
  · exact absurd (edited.allocated.mp attached) isNew
  · obtain ⟨-, -, isEmpty⟩ := grows_withEmpty taken.linked
    have same : id = nextEmpty p.tree := by
      have inside := edited.allocated.mp attached
      rw [Tree.Allocated, withEmpty, Tree.size_alloc] at inside
      rw [Tree.Allocated] at isNew
      cases id
      simp only [nextEmpty, Tree.alloc, NodeId.mk.injEq] at inside isNew ⊢
      omega
    have tag := edited.tag id
    rw [same, isEmpty] at tag
    rw [same, Program.node]
    cases shape : after.tree.node (nextEmpty p.tree) <;> simp_all [Node.tag]

end Program.Taken

namespace Unused

open Program SimplifyM

variable {o p q after : Program} {c : Context} {w : Workspace} {s : Set NodeId}
  {id d name target old : NodeId} {new : Option NodeId}

/-- A function declaration or a declarator of an identifier that is part of the program. -/
def IsDeclaration (p : Program) (d : NodeId) : Prop :=
  p.isAttached d = true ∧ (declaredName? p d).isSome = true

/-- A set has every declaration that lies in one of it, and every one that declares an unprotected
name all other mentions of which lie in declarations of the set. -/
structure Closed (p : Program) (c : Context) (s : Set NodeId) : Prop where
  nested : ∀ {d outer}, IsDeclaration p d → outer ∈ s → p.tree.isWithin d outer = true → d ∈ s
  unused : ∀ {d name binding}, p.isAttached d = true → declaredName? p d = some name →
    p.bindingOf? name = some binding → (p.binding binding).identifier = name →
    c.isProtected (p.binding binding).name = false →
    (∀ mention, p.bindingOf? mention = some binding → mention ≠ name →
      ∃ outer ∈ s, p.tree.isWithin mention outer = true) → d ∈ s

/-! ### Names and declarations -/

def isFunctionDeclaration {α : Type} : Node α → Bool
  | .function f => f.kind = .declaration
  | _ => false

theorem isFunctionDeclaration_tag {α : Type} (n : Node α) :
    isFunctionDeclaration n.tag = isFunctionDeclaration n := by
  cases n <;> rfl

theorem declaredName?_eq_some_iff (isIdentifier : (p.node name).isIdentifier = true) :
    declaredName? p id = some name ↔
      isFunctionDeclaration (p.node id) = true ∧ name ∈ (p.node id).part .name ∨
        (p.node id).isDeclarator = true ∧ name ∈ (p.node id).part .target := by
  unfold declaredName?
  split
  · rename_i f shape
    rw [shape]
    simp [isFunctionDeclaration, Node.isDeclarator, Node.part]
  · rename_i target init shape
    rw [shape]
    simp only [isFunctionDeclaration, Node.isDeclarator, Node.part, Bool.false_eq_true, false_and,
      false_or, true_and, List.mem_singleton, Option.ite_none_right_eq_some, Option.some.injEq]
    exact ⟨fun found => found.2.symm, fun same => ⟨same ▸ isIdentifier, same.symm⟩⟩
  · rename_i notFunction notDeclarator
    cases shape : p.node id <;> simp_all [isFunctionDeclaration, Node.isDeclarator]

theorem isAttached_of_declaredName? (rooted : p.Rooted) (attached : p.isAttached id = true)
    (isIdentifier : (p.node name).isIdentifier = true) (declares : declaredName? p id = some name) :
    p.isAttached name = true := by
  have member : name ∈ (p.tree.node id).children := by
    rcases (declaredName?_eq_some_iff isIdentifier).mp declares with ⟨-, held⟩ | ⟨-, held⟩ <;>
      exact Node.mem_children_of_mem_part held
  rw [isAttached_eq rooted.linked rooted.isTop.top] at attached ⊢
  have held := rooted.linked.mem_children.mp member
  exact rooted.linked.isWithin_trans (rooted.linked.isWithin_of_parent held) attached

theorem declaredName?_congr (swapped : (p.node id).Swapped old new (q.node id))
    (isIdentifier : (p.node name).isIdentifier = true) (still : (q.node name).isIdentifier = true)
    (notOld : name ≠ old) (notNew : some name ≠ new) :
    declaredName? q id = some name ↔ declaredName? p id = some name := by
  have parts (part : Part) : name ∈ (q.node id).part part ↔ name ∈ (p.node id).part part := by
    rw [swapped.part, mem_flatMap_swap]
    simp [notOld, notNew]
  rw [declaredName?_eq_some_iff isIdentifier, declaredName?_eq_some_iff still, parts, parts,
    ← isFunctionDeclaration_tag, ← Node.isDeclarator_tag, swapped.tag, isFunctionDeclaration_tag,
    Node.isDeclarator_tag]

theorem isUnused_of_alone (sound : p.Sound) {e : Declaration}
    (means : p.lexicon.meaning? name = some e) (isDeclared : e.identifier = name)
    (unprotected : c.isProtected e.name = false)
    (alone : ∀ mention, p.lexicon.meaning? mention = some e → mention = name) :
    isUnused p c name = true := by
  obtain ⟨binding, belongs, stands⟩ := sound.exists_of_meaning? means
  have apart {mention : NodeId}
      (member : mention ∈ (p.binding binding).references ∨
        mention ∈ (p.binding binding).mutations) : False := by
    obtain ⟨mentions, different⟩ := sound.meaning?_of_mem means belongs member
    exact different ((alone mention mentions).trans isDeclared.symm)
  have unread : (p.binding binding).references = [] :=
    List.eq_nil_iff_forall_not_mem.mpr fun mention member => apart (.inl member)
  have unwritten : (p.binding binding).mutations = [] :=
    List.eq_nil_iff_forall_not_mem.mpr fun mention member => apart (.inr member)
  have isIdentifier : (p.binding binding).identifier = name := stands.identifier.trans isDeclared
  have isName : (p.binding binding).name = e.name := stands.name
  simp [isUnused, belongs, unread, unwritten, isIdentifier, isName, unprotected]

structure Fades (p : Program) (d : NodeId) : Prop where
  removable : p.Removable d
  leaves : p.leaving d = d ∨
    (p.node (p.leaving d)).isVariableDeclaration = true ∧ (p.node (p.leaving d)).children = [d]
  notIdentifier : (p.node d).isIdentifier = false

theorem exists_of_declaredName? (declares : declaredName? p d = some name) :
    (∃ f, p.node d = .function f ∧ f.kind = .declaration) ∨
    ∃ init, p.node d = .variableDeclarator name init := by
  cases shape : p.node d <;> simp_all [declaredName?]

theorem fades_of_declaredName? (steady : p.Steady) (attached : p.isAttached d = true)
    (declares : declaredName? p d = some name) {binding : BindingId}
    (belongs : p.bindingOf? name = some binding) :
    Fades p d := by
  rw [isAttached_eq steady.linked steady.isTop.top] at attached
  rcases exists_of_declaredName? declares with ⟨f, shape, isDeclaration⟩ | ⟨init, shape⟩
  · obtain ⟨removable, leaves⟩ := steady.removable_statement attached (by
      rw [shape]
      simpa [Node.isStatement] using isDeclaration)
    exact ⟨removable, .inl leaves, by rw [shape]; rfl⟩
  · obtain ⟨declaration, held, isDeclaration⟩ := steady.sound.exists_declaration shape belongs
    obtain ⟨kind, declarators, holder⟩ := Node.exists_of_isVariableDeclaration isDeclaration
    obtain ⟨removable, leaves⟩ := steady.removable_declarator attached held holder
    refine ⟨removable, leaves.imp_right fun alone => ?_, by rw [shape]; rfl⟩
    rw [alone.1]
    exact ⟨isDeclaration, alone.2⟩

/-! ### What is left of a program -/

structure Pruned (o : Program) (s : Set NodeId) (p : Program) : Prop where
  origin : o.Steady
  orderly : o.Orderly .names o p
  parent :
    ∀ {id}, o.isAttached id = true → p.isAttached id = true → p.tree.parent? id = o.tree.parent? id
  blank : ∀ {id}, p.isAttached id = true → o.isAttached id = false → p.node id = .empty
  declares :
    ∀ {id name}, o.isAttached id = true → p.isAttached id = true →
    (o.node name).isIdentifier = true →
    (declaredName? p id = some name ↔ declaredName? o id = some name)
  gone : ∀ {id}, o.isAttached id = true → p.isAttached id = false →
    (o.node id).isVariableDeclaration = true ∨ ∃ outer ∈ s, o.tree.isWithin id outer = true

theorem Pruned.start (steady : o.Steady) (sorted : o.tree.Sorted fun id => o.isAttached id = true) :
    Pruned o s o where
  origin := steady
  orderly := .names (.start steady.sound sorted) steady
  parent _ _ := rfl
  blank attached detached := by simp [attached] at detached
  declares _ _ _ := .rfl
  gone attached detached := by simp [attached] at detached

namespace Pruned

variable (pruned : Pruned o s p)

include pruned

theorem steady : p.Steady := (pruned.orderly.steady rfl).1

theorem neat : o.Neat p := pruned.orderly.neat nofun

theorem isAttached_of_node_ne (attached : p.isAttached id = true) (there : p.node id ≠ .empty) :
    o.isAttached id = true := by
  cases was : o.isAttached id with
  | true => rfl
  | false => exact absurd (pruned.blank attached was) there

theorem tag (attached : o.isAttached id = true) : (p.node id).tag = (o.node id).tag :=
  pruned.orderly.tag (pruned.neat.origin.allocated_of_isAttached attached)

theorem isIdentifier (was : (o.node id).isIdentifier = true) : (p.node id).isIdentifier = true := by
  rw [Program.node, ← Node.isIdentifier_tag,
    pruned.orderly.tag (Tree.allocated_of_isIdentifier was), Node.isIdentifier_tag]
  exact was

/-- What is left hangs below the same nodes as before. -/
theorem isWithin_eq {outer : NodeId} (before : o.isAttached id = true)
    (attached : p.isAttached id = true) :
    p.tree.isWithin id outer = o.tree.isWithin id outer := by
  have origin := pruned.origin.sound.rooted
  have rooted := pruned.neat.rooted
  induction id using origin.linked.induction with
  | step id induction =>
    have same := pruned.parent before attached
    cases held : o.tree.parent? id with
    | none =>
      rw [held] at same
      rw [Bool.eq_iff_iff, Tree.isWithin_of_root same, Tree.isWithin_of_root held]
    | some parent =>
      rw [held] at same
      by_cases isOuter : id = outer
      · rw [isOuter, Tree.isWithin_self, Tree.isWithin_self]
      · rw [rooted.linked.isWithin_parent same isOuter, origin.linked.isWithin_parent held isOuter]
        exact induction parent held (origin.isAttached_parent before held)
          (rooted.isAttached_parent attached same)

theorem isAttached_of_isWithin {outer : NodeId} (before : o.isAttached id = true)
    (attached : p.isAttached id = true) (within : o.tree.isWithin id outer = true) :
    p.isAttached outer = true := by
  rw [← pruned.isWithin_eq before attached] at within
  exact pruned.neat.rooted.isAttached_of_isWithin attached within

/-- Names that are left mean the same as before. -/
theorem meaning?_eq {e : Declaration} (means : p.lexicon.meaning? id = some e) :
    o.isAttached id = true ∧ o.lexicon.meaning? id = some e := by
  have rooted := pruned.neat.rooted
  have attached : p.isAttached id = true := by
    rw [isAttached_eq rooted.linked rooted.isTop.top]
    exact (isWithin_root_of_meaning? rooted means).1
  have before := pruned.isAttached_of_node_ne attached fun isEmpty => by
    have isIdentifier := pruned.steady.sound.isIdentifier_of_meaning? means
    rw [isEmpty] at isIdentifier
    cases isIdentifier
  exact ⟨before, (((pruned.orderly.spares rfl) id before attached).2).symm.trans means⟩

/-- What is unused when something has gone was to go from the start: what mentions it goes, too. -/
theorem mem_of_unused (closed : Closed o c s) {now : Context}
    (same : now.protectedNames = c.protectedNames) (attached : p.isAttached d = true)
    (found : (declaredName? p d).filter (isUnused p now) = some name) : d ∈ s := by
  obtain ⟨declares, unused⟩ := Option.filter_eq_some_iff.mp found
  obtain ⟨binding, belongs, unused⟩ := (Option.any_eq_true ..).mp unused
  simp only [Bool.and_eq_true, decide_eq_true_eq, List.isEmpty_iff, Bool.not_eq_true'] at unused
  obtain ⟨⟨⟨isDeclared, unread⟩, unwritten⟩, unprotected⟩ := unused
  have sound := pruned.steady.sound
  have origin := pruned.origin.sound
  obtain ⟨e, means, stands⟩ := sound.exists_of_bindingOf? belongs
  obtain ⟨nameBefore, meant⟩ := pruned.meaning?_eq means
  obtain ⟨original, belonged, stood⟩ := origin.exists_of_meaning? meant
  have isName : e.identifier = name := stands.identifier.symm.trans isDeclared
  have before : o.isAttached d = true := pruned.isAttached_of_node_ne attached fun isEmpty => by
    simp [declaredName?, isEmpty] at declares
  refine closed.unused before
    ((pruned.declares before attached (origin.isIdentifier_of_meaning? meant)).mp declares) belonged
    (stood.identifier.trans isName) ?_ fun mention mentions different => ?_
  · rw [show (o.binding original).name = e.name from stood.name, ← stands.name,
      Context.isProtected, ← same]
    exact unprotected
  · -- If it were left, it would still mention the name.
    obtain ⟨other, mentioned, otherStood⟩ := origin.exists_of_bindingOf? mentions
    have isOther : other = e := origin.regular.eq_of_identifier
      (Lexicon.binder?_some (Lexicon.meaning?_some mentioned)).1
      (Lexicon.binder?_some (Lexicon.meaning?_some meant)).1
      (otherStood.identifier.symm.trans stood.identifier)
    subst isOther
    have within := (isWithin_root_of_meaning? origin.rooted mentioned).1
    rw [← isAttached_eq origin.linked origin.isTop.top] at within
    have isGone : p.isAttached mention = false := by
      rw [Bool.eq_false_iff]
      intro left
      have stillMeans := ((pruned.orderly.spares rfl) mention within left).2.trans mentioned
      exact different ((sound.eq_of_means stillMeans (isName ▸ belongs) unread unwritten).trans
        isName)
    refine (pruned.gone within isGone).resolve_left fun isDeclaration => ?_
    have isIdentifier := origin.isIdentifier_of_meaning? mentioned
    cases shape : o.node mention <;>
      simp_all [Node.isVariableDeclaration, Node.isIdentifier, Node.identifier?]

theorem allocated (before : o.isAttached id = true) : p.tree.Allocated id :=
  pruned.orderly.allocated (pruned.origin.sound.rooted.allocated_of_isAttached before)

/-! A declaration of the set is taken away. -/

section Step

variable (step : o.Orderly .names p after) (taken : p.Taken d after)

include step taken

omit pruned in
theorem lost (allocated : p.tree.Allocated id) (left : after.isAttached id = true) :
    p.isAttached id = true ∧ p.tree.isWithin id (p.leaving d) = false := by
  rw [isAttached_eq step.rooted.linked step.rooted.isTop.top] at left
  rw [isAttached_eq taken.linked taken.sound.isTop.top]
  exact taken.loses.lost allocated left

theorem parent_step (before : o.isAttached id = true) (left : after.isAttached id = true) :
    after.tree.parent? id = o.tree.parent? id := by
  obtain ⟨mid, outside⟩ := lost step taken (pruned.allocated before) left
  rw [← pruned.parent before mid]
  rw [isAttached_eq taken.linked taken.sound.isTop.top] at mid
  exact (taken.loses.kept mid outside).2

theorem blank_step (left : after.isAttached id = true) (notBefore : o.isAttached id = false) :
    after.node id = .empty := by
  by_cases old : p.tree.Allocated id
  · have wasEmpty := pruned.blank (lost step taken old left).1 notBefore
    have tag := step.tag old
    rw [show p.tree.node id = .empty from wasEmpty] at tag
    cases shape : after.node id <;> simp_all [Node.tag, Program.node]
  · exact taken.node_eq_empty old (step.rooted.allocated_of_isAttached left)

variable (fades : Fades p d)

include fades

theorem declares_step (before : o.isAttached id = true) (left : after.isAttached id = true)
    (isIdentifier : (o.node name).isIdentifier = true) :
    declaredName? after id = some name ↔ declaredName? o id = some name := by
  have allocatedName : p.tree.Allocated name :=
    pruned.orderly.allocated (Tree.allocated_of_isIdentifier isIdentifier)
  have still := pruned.isIdentifier isIdentifier
  obtain ⟨new, swapped, isNew⟩ := taken.exists_swapped (pruned.allocated before)
  rw [← pruned.declares before (lost step taken (pruned.allocated before) left).1 isIdentifier]
  refine declaredName?_congr swapped still ?_ ?_ fun same => isNew name same.symm allocatedName
  · rw [Program.node, ← Node.isIdentifier_tag, step.tag allocatedName, Node.isIdentifier_tag]
    exact still
  · rintro rfl
    rcases fades.leaves with leaves | ⟨isDeclaration, -⟩
    · rw [leaves, fades.notIdentifier] at still
      cases still
    · cases shape : p.node (p.leaving d) <;>
        simp_all [Node.isVariableDeclaration, Node.isIdentifier, Node.identifier?]

theorem gone_step (isMember : d ∈ s) (before : o.isAttached id = true)
    (isGone : after.isAttached id = false) :
    (o.node id).isVariableDeclaration = true ∨ ∃ outer ∈ s, o.tree.isWithin id outer = true := by
  cases mid : p.isAttached id with
  | false => exact pruned.gone before mid
  | true =>
    have below : p.tree.isWithin id (p.leaving d) = true := by
      by_contra outside
      rw [isAttached_eq taken.linked taken.sound.isTop.top] at mid
      have left := (taken.loses.kept mid (Bool.eq_false_iff.mpr outside)).1
      rw [← isAttached_eq step.rooted.linked step.rooted.isTop.top, isGone] at left
      cases left
    have inside (within : p.tree.isWithin id d = true) :
        ∃ outer ∈ s, o.tree.isWithin id outer = true :=
      ⟨d, isMember, (pruned.isWithin_eq before mid).symm.trans within⟩
    rcases fades.leaves with leaves | ⟨isDeclaration, only⟩
    · exact .inr (inside (leaves ▸ below))
    · by_cases same : id = p.leaving d
      · refine .inl ?_
        rw [← Node.isVariableDeclaration_tag, ← pruned.tag before,
          Node.isVariableDeclaration_tag, same]
        exact isDeclaration
      · obtain ⟨child, member, within⟩ := taken.linked.exists_child below same
        rw [show (p.tree.node (p.leaving d)).children = [d] from only, List.mem_singleton] at member
        exact .inr (inside (member ▸ within))

end Step

theorem remove (closed : Closed o c s) {now : Context}
    (same : now.protectedNames = c.protectedNames) (attached : p.isAttached d = true)
    (found : (declaredName? p d).filter (isUnused p now) = some name) :
    ∃ after, p.remove d = .ok after ∧ Pruned o s after ∧ after.isAttached d = false ∧
      ∀ id, o.isAttached id = true → after.isAttached id = true → p.isAttached id = true := by
  have steady := pruned.steady
  obtain ⟨declares, unused⟩ := Option.filter_eq_some_iff.mp found
  obtain ⟨binding, belongs, -⟩ := (Option.any_eq_true ..).mp unused
  have fades := fades_of_declaredName? steady attached declares belongs
  have isMember := pruned.mem_of_unused closed same attached found
  obtain ⟨after, done, taken⟩ := fades.removable.exists_taken steady
  have step := pruned.orderly.stay.remove done fun isNames =>
    unmissed pruned.orderly.stay found isNames fades.removable.attached
  refine ⟨after, done, ⟨pruned.origin, pruned.orderly.trans step, pruned.parent_step step taken,
    pruned.blank_step step taken, pruned.declares_step step taken fades,
    pruned.gone_step step taken fades isMember⟩, ?_, fun id before left =>
      (lost step taken (pruned.allocated before) left).1⟩
  rw [Bool.eq_false_iff]
  intro left
  have allocated := steady.sound.rooted.allocated_of_isAttached attached
  have outside := (lost step taken allocated left).2
  rw [isWithin_leaving steady.linked] at outside
  cases outside

end Pruned

/-! ### Runs -/

/-- A workspace to which sweeps have led from a program without expanding calls. -/
structure Swept (o : Program) (c : Context) (w : Workspace) : Prop where
  pruned : ∀ s, Closed o c s → Pruned o s w.program
  noInlining : w.context.config.functionInlining = false
  protectedNames : w.context.protectedNames = c.protectedNames

theorem closed_univ : Closed o c Set.univ := ⟨fun _ _ _ => trivial, fun _ _ _ _ _ _ => trivial⟩

def IsUsed (w : Workspace) (d : NodeId) : Prop :=
  (declaredName? w.program d).filter (isUnused w.program w.context) = none

/-- How many nodes of a program are left. -/
def remaining (o p : Program) : Nat :=
  ((Finset.range o.tree.size).filter fun index => o.isAttached ⟨index⟩ ∧ p.isAttached ⟨index⟩).card

theorem remaining_le : remaining o p ≤ o.tree.size :=
  (Finset.card_filter_le ..).trans (Nat.le_of_eq (Finset.card_range _))

theorem remaining_lt (origin : o.Rooted) (attached : o.isAttached d = true)
    (left : p.isAttached d = true) (isGone : after.isAttached d = false)
    (kept : ∀ id, o.isAttached id = true → after.isAttached id = true → p.isAttached id = true) :
    remaining o after < remaining o p := by
  refine Finset.card_lt_card ⟨fun index member => ?_, fun all => ?_⟩
  · obtain ⟨inside, before, still⟩ := Finset.mem_filter.mp member
    exact Finset.mem_filter.mpr ⟨inside, before, kept _ before still⟩
  · have there : d.index ∈ (Finset.range o.tree.size).filter
        fun index => o.isAttached ⟨index⟩ ∧ p.isAttached ⟨index⟩ :=
      Finset.mem_filter.mpr
        ⟨Finset.mem_range.mpr (origin.allocated_of_isAttached attached), attached, left⟩
    have still := (Finset.mem_filter.mp (all there)).2.2
    rw [isGone] at still
    cases still

/-- What an action that sweeps comes to: it succeeds, and if it answers yes, less is left. -/
def Sweeps (o : Program) (c : Context) (action : SimplifyM Bool) (quiet : Workspace → Prop)
    (w : Workspace) : Prop :=
  ∃ changed after, action w = .ok changed after ∧ Swept o c after ∧
    (changed = true → remaining o after.program < remaining o w.program) ∧
      (changed = false → after = w ∧ quiet w)

theorem Sweeps.or {first second : SimplifyM Bool} {quiet further : Workspace → Prop}
    (sweeps : Sweeps o c first quiet w)
    (next : ∀ mid, Swept o c mid → Sweeps o c second further mid) :
    Sweeps o c (do let x ← first; let y ← second; return x || y)
      (fun w => quiet w ∧ further w) w := by
  obtain ⟨x, mid, ran, swept, fewer, rests⟩ := sweeps
  obtain ⟨y, after, ranOn, sweptOn, fewerOn, restsOn⟩ := next mid swept
  refine ⟨x || y, after, ?_, sweptOn, fun changed => ?_, fun unchanged => ?_⟩
  · rw [bind_of_ok _ ran, bind_of_ok _ ranOn]
    rfl
  · cases x with
    | true =>
      have less := fewer rfl
      cases y with
      | true => exact (fewerOn rfl).trans less
      | false =>
        rw [(restsOn rfl).1]
        exact less
    | false =>
      rw [(rests rfl).1] at fewerOn
      exact fewerOn (by simpa using changed)
  · obtain ⟨rfl, rfl⟩ := Bool.or_eq_false_iff.mp unchanged
    obtain ⟨rfl, isQuiet⟩ := rests rfl
    obtain ⟨rfl, isQuietOn⟩ := restsOn rfl
    exact ⟨rfl, isQuiet, isQuietOn⟩

namespace Swept

variable (swept : Swept o c w)

include swept

theorem sweeps_removeStep (attached : w.program.isAttached d = true) :
    Sweeps o c (removeStep d) (IsUsed · d) w := by
  cases found : (declaredName? w.program d).filter (isUnused w.program w.context) with
  | none =>
    refine ⟨false, w, ?_, swept, nofun, fun _ => ⟨rfl, found⟩⟩
    rw [removeStep, program_bind, context_bind, found]
    rfl
  | some name =>
    have origin := swept.pruned Set.univ closed_univ
    obtain ⟨after, done, -, isGone, kept⟩ := origin.remove closed_univ swept.protectedNames
      attached found
    have removed : SimplifyM.remove d w = .ok () { w with program := after } := remove_of_ok done
    have ran : removeStep d w = .ok true { w with
        program := after
        context := { w.context with
          journal := w.context.journal.record ⟨.declarationRemoved, w.program.snippet name, some d,
            none⟩ } } := by
      rw [removeStep, program_bind, context_bind, found]
      dsimp only
      rw [snippet_bind, bind_of_ok _ removed, record_bind]
      rfl
    have before : o.isAttached d = true := origin.isAttached_of_node_ne attached fun isEmpty => by
      simp [declaredName?, isEmpty] at found
    refine ⟨true, _, ran, ⟨fun s closed => ?_, swept.noInlining, swept.protectedNames⟩,
      fun _ => remaining_lt origin.origin.sound.rooted before attached isGone kept, nofun⟩
    obtain ⟨_, same, pruned, -⟩ := (swept.pruned s closed).remove closed swept.protectedNames
      attached found
    rw [done] at same
    cases same
    exact pruned

theorem sweeps_step (attached : w.program.isAttached d = true) :
    Sweeps o c (step d) (IsUsed · d) w := by
  obtain ⟨removed, after, ran, rest⟩ := swept.sweeps_removeStep attached
  refine ⟨removed, after, ?_, rest⟩
  have quiet : ((w.program.node d).isFunction && w.context.config.functionInlining) = false := by
    rw [swept.noInlining, Bool.and_false]
  rw [step, program_bind, context_bind]
  simp only [quiet, Bool.false_eq_true, if_false, pure_bind]
  rw [bind_of_ok _ ran]
  rfl

theorem sweeps_ifAttached (d : NodeId) :
    Sweeps o c (ifAttached d (step d)) (fun w => w.program.isAttached d = true → IsUsed w d) w := by
  cases attached : w.program.isAttached d with
  | true =>
    obtain ⟨changed, after, ran, sweptOn, fewer, rests⟩ := swept.sweeps_step attached
    refine ⟨changed, after, ?_, sweptOn, fewer, fun unchanged =>
      (rests unchanged).imp_right fun isUsed _ => isUsed⟩
    rw [ifAttached, program_bind, if_pos attached, ran]
  | false =>
    refine ⟨false, w, ?_, swept, fun changes => absurd changes Bool.false_ne_true,
      fun _ => ⟨rfl, fun left => by simp [attached] at left⟩⟩
    rw [ifAttached, program_bind, if_neg (by simp [attached])]
    rfl

theorem sweeps_anyChange (items : List NodeId) :
    Sweeps o c (anyChange items fun d => ifAttached d (step d))
      (fun w => ∀ d ∈ items, w.program.isAttached d = true → IsUsed w d) w := by
  induction items generalizing w with
  | nil => exact ⟨false, w, rfl, swept, nofun, fun _ => ⟨rfl, nofun⟩⟩
  | cons head rest induction =>
    rw [anyChange_cons]
    simp only [List.forall_mem_cons]
    exact (swept.sweeps_ifAttached head).or fun mid => induction

theorem sweeps_sweep :
    Sweeps o c sweep (fun w => ∀ d, w.program.isAttached d = true → IsUsed w d) w := by
  let found := w.program.nodes.filter fun id => (declaredName? w.program id).isSome
  obtain ⟨changed, after, ran, sweptOn, fewer, rests⟩ := swept.sweeps_anyChange found
  refine ⟨changed, after, ran, sweptOn, fewer, fun unchanged =>
    (rests unchanged).imp_right fun isUsed d left => ?_⟩
  cases declares : declaredName? w.program d with
  | none => rw [IsUsed, declares]; rfl
  | some name =>
    have rooted := (swept.pruned Set.univ closed_univ).neat.rooted
    refine isUsed d (List.mem_filter.mpr ⟨?_, by rw [declares]; rfl⟩) left
    rw [isAttached_eq rooted.linked rooted.isTop.top] at left
    exact (rooted.linked.mem_descendants_iff rooted.isTop.allocated).mpr left

theorem exists_of_sweepWithin {limit : Nat} (enough : remaining o w.program < limit) :
    ∃ changed after, sweepWithin limit w = .ok changed after ∧ Swept o c after ∧
      sweep after = .ok false after ∧ ∀ d, after.program.isAttached d = true → IsUsed after d := by
  induction limit generalizing w with
  | zero => cases enough
  | succ limit induction =>
    obtain ⟨changed, mid, ran, sweptOn, fewer, rests⟩ := swept.sweeps_sweep
    cases changed with
    | true =>
      obtain ⟨_, after, ranOn, last⟩ := induction sweptOn (by have := fewer rfl; omega)
      refine ⟨true, after, ?_, last⟩
      rw [sweepWithin, bind_of_ok _ ran, if_pos rfl, bind_of_ok _ (discard_of_ok ranOn)]
      rfl
    | false =>
      obtain ⟨rfl, quiet⟩ := rests rfl
      refine ⟨false, mid, ?_, sweptOn, ran, quiet⟩
      rw [sweepWithin, bind_of_ok _ ran]
      rfl

theorem exists_of_run : ∃ changed after, run w = .ok changed after ∧ Swept o c after ∧
    sweep after = .ok false after ∧ ∀ d, after.program.isAttached d = true → IsUsed after d := by
  have size := (swept.pruned Set.univ closed_univ).orderly.size
  refine swept.exists_of_sweepWithin (Nat.lt_of_lt_of_le ?_ (Nat.le_max_right ..))
  exact Nat.lt_succ_of_le (remaining_le.trans size)

end Swept

theorem Pruned.closed (pruned : Pruned o s p) {now : Context}
    (same : now.protectedNames = c.protectedNames)
    (isUsed : ∀ d, p.isAttached d = true → IsUsed ⟨p, now⟩ d) :
    Closed o c {d | IsDeclaration o d ∧ p.isAttached d = false} where
  nested {d outer} isDeclaration isGone within := by
    refine ⟨isDeclaration, ?_⟩
    rw [Bool.eq_false_iff]
    intro left
    have still := pruned.isAttached_of_isWithin isDeclaration.1 left within
    rw [isGone.2] at still
    cases still
  unused {d name binding} before declares belongs isDeclared unprotected gone := by
    refine ⟨⟨before, by rw [declares]; rfl⟩, ?_⟩
    rw [Bool.eq_false_iff]
    intro left
    have origin := pruned.origin.sound
    have sound := pruned.steady.sound
    obtain ⟨e, meant, stood⟩ := origin.exists_of_bindingOf? belongs
    have isIdentifier := origin.isIdentifier_of_meaning? meant
    have stillDeclares := (pruned.declares before left isIdentifier).mpr declares
    have leftName := isAttached_of_declaredName? sound.rooted left
      (pruned.isIdentifier isIdentifier) stillDeclares
    have attachedName : o.isAttached name = true := by
      rw [isAttached_eq origin.linked origin.isTop.top]
      exact (isWithin_root_of_meaning? origin.rooted meant).1
    have means : p.lexicon.meaning? name = some e :=
      ((pruned.orderly.spares rfl) name attachedName leftName).2.trans meant
    have unused : isUnused p now name = true := by
      refine isUnused_of_alone sound means (stood.identifier.symm.trans isDeclared) ?_
        fun mention mentions => ?_
      · rw [Context.isProtected, same, ← stood.name]
        exact unprotected
      · by_contra different
        obtain ⟨beforeMention, meantBefore⟩ := pruned.meaning?_eq mentions
        have belonged : o.bindingOf? mention = some binding := by
          rw [origin.bindingOf?_eq, meantBefore, ← meant, ← origin.bindingOf?_eq, belongs]
        obtain ⟨outer, isGone, within⟩ := gone mention belonged different
        have leftMention : p.isAttached mention = true := by
          rw [isAttached_eq sound.linked sound.isTop.top]
          exact (isWithin_root_of_meaning? sound.rooted mentions).1
        have still := pruned.isAttached_of_isWithin beforeMention leftMention within
        rw [isGone.2] at still
        cases still
    have used := isUsed d left
    rw [IsUsed, stillDeclares, Option.filter_eq_none_iff] at used
    exact used name rfl unused

/-- The sweeps end with one that answers no. The declarations that are taken away are then the least
set that has every declaration that lies in one of it, and every one that declares an unprotected
name all other mentions of which lie in declarations of the set. -/
theorem isLeast_of_run (reached : o.Reached) (verified : o.verify = .ok ())
    (wellBound : o.tree.WellBound) (sorted : o.tree.Sorted fun id => o.isAttached id = true)
    (noInlining : c.config.functionInlining = false) :
    ∃ changed after, Rule.unusedDeclaration.run ⟨o, c⟩ = .ok changed after ∧
      sweep after = .ok false after ∧
      IsLeast {s | Closed o c s} {d | IsDeclaration o d ∧ after.program.isAttached d = false} := by
  have steady : o.Steady := ⟨reached.sound verified, wellBound⟩
  have start : Swept o c ⟨o, c⟩ := ⟨fun _ _ => .start steady sorted, noInlining, rfl⟩
  obtain ⟨changed, after, ran, swept, quiet, isUsed⟩ := start.exists_of_run
  refine ⟨changed, after, ran, quiet, ?_, fun s closed d ⟨isDeclaration, isGone⟩ => ?_⟩
  · exact (swept.pruned Set.univ closed_univ).closed swept.protectedNames isUsed
  · rcases (swept.pruned s closed).gone isDeclaration.1 isGone with
      isOther | ⟨outer, member, within⟩
    · obtain ⟨-, names⟩ := isDeclaration
      cases shape : o.node d <;> simp_all [declaredName?, Node.isVariableDeclaration]
    · exact closed.nested isDeclaration member within

/-- The tree of `let a = true; let b = a;`. -/
def chained : Tree :=
  ⟨#[⟨.identifier "a", some ⟨2⟩⟩, ⟨.literal (.boolean true), some ⟨2⟩⟩,
    ⟨.variableDeclarator ⟨0⟩ (some ⟨1⟩), some ⟨3⟩⟩, ⟨.variableDeclaration .let_ [⟨2⟩], some ⟨8⟩⟩,
    ⟨.identifier "b", some ⟨6⟩⟩, ⟨.identifier "a", some ⟨6⟩⟩, ⟨.variableDeclarator ⟨4⟩ (some ⟨5⟩),
      some ⟨7⟩⟩, ⟨.variableDeclaration .let_ [⟨6⟩], some ⟨8⟩⟩,
    ⟨.program [⟨3⟩, ⟨7⟩], none⟩]⟩

/-- The context in which no calls are expanded. -/
def notInlining : Context := .ofConfig { Config.default with functionInlining := false }

theorem exists_isLeast_of_run : ∃ p changed w, Program.ofTree chained ⟨8⟩ = .ok p ∧
    Rule.unusedDeclaration.run ⟨p, notInlining⟩ = .ok changed w ∧ sweep w = .ok false w ∧
      IsLeast {s | Closed p notInlining s}
        {d | IsDeclaration p d ∧ w.program.isAttached d = false} := by
  have linked : chained.Linked := Tree.linked_of_checks (by decide)
  have isTop : chained.IsTop ⟨8⟩ := ⟨by decide, by decide⟩
  obtain ⟨scopes, made, steady⟩ := Program.exists_steady chained ⟨8⟩ linked isTop
    (Tree.wellBound_of_bindsWell (by decide)) rfl
  have sorted := steady.sound.rooted.sorted_of_isSorted (show chained.isSorted = true by decide)
  obtain ⟨changed, w, ran, least⟩ :=
    isLeast_of_run (.made linked isTop made) steady.sound.verify steady.wellBound sorted
      (c := notInlining) rfl
  exact ⟨_, changed, w, made, ran, least⟩

end Unused

end Unravel
