import Unravel.Proofs.Simplify.Collapsed
import Unravel.Proofs.Simplify.Rules

/-!
What is left to collapse once aliases have been collapsed: nothing. A declaration that copied an
alias copies the end of the chain now, so that chains get shorter but end where they ended
(`Alias.Collapsed.ends_after`), and no place has a target any more
(`Alias.Collapsed.wanted?_eq_none`).

Main statement: collapsing aliases is sound, and doing it again changes nothing
(`Rule.collapses_aliases`).
-/

namespace Unravel

namespace Alias

variable {p q : Program} {now : NodeId → NodeId} {sites : List NodeId} {b target last : BindingId}
  {declarator init : NodeId} {name : String}

/-! ### Targets -/

/-- What a chain of links that starts at a binding has at its end: a global, or a constant binding
other than the one at its start. -/
inductive Origin (p : Program) (links : Links) (start last : BindingId) (name : String) :
    Option BindingId → Prop
  | global (names : links.globals[last]? = some name) : Origin p links start last name none
  | binding (unnamed : links.globals[last]? = none) (different : last ≠ start)
      (constant : (p.binding last).isConstant = true) (isName : (p.binding last).name = name) :
      Origin p links start last name (some last)

theorem Links.origin?_eq_some_iff {links : Links} {start : BindingId}
    {expected : Option BindingId} :
    links.origin? p start = some (name, expected) ↔
      Origin p links start (Chain.last links.next start) name expected := by
  simp only [Links.origin?]
  cases named : links.globals[Chain.last links.next start]? with
  | some other =>
    constructor
    · intro same
      cases same
      exact .global named
    · rintro (⟨names⟩ | ⟨unnamed, -, -, -⟩)
      · rw [named, Option.some.injEq] at names
        simp [names]
      · rw [named] at unnamed
        cases unnamed
  | none =>
    simp only [ne_eq, Bool.and_eq_true, decide_not, Bool.not_eq_true', decide_eq_false_iff_not,
      Option.ite_none_right_eq_some, Option.some.injEq, Prod.mk.injEq]
    constructor
    · rintro ⟨⟨different, constant⟩, isName, rfl⟩
      exact .binding named different constant isName
    · rintro (⟨names⟩ | ⟨-, different, constant, isName⟩)
      · rw [named] at names
        cases names
      · exact ⟨⟨different, constant⟩, isName, rfl⟩

theorem Links.exists_of_wanted? {links : Links} {site : NodeId}
    (wanted : links.wanted? p site = some name) :
    ∃ start expected, p.usedBinding? site = some start ∧
      links.origin? p start = some (name, expected) ∧
      p.resolve? site name = expected := by
  obtain ⟨start, used, isTarget⟩ := Option.bind_eq_some_iff.mp wanted
  simp only [Links.target?, bind, Option.bind_eq_some_iff, Prod.exists] at isTarget
  obtain ⟨declarator, init, -, other, expected, origin, isTarget⟩ := isTarget
  rw [Option.ite_none_right_eq_some, Bool.and_eq_true, decide_eq_true_eq, Option.some.injEq]
    at isTarget
  obtain ⟨⟨-, resolves⟩, rfl⟩ := isTarget
  exact ⟨start, expected, used, origin, resolves⟩

/-! ### Declarations that copy -/

namespace Copies

theorem place (copies : Copies p b declarator init name) (steady : p.Steady)
    (live : b ∈ p.scopes.liveIds) :
    p.tree.isWithin declarator p.root = true ∧ p.tree.parent? init = some declarator ∧
      IsSite p init := by
  have attached := steady.attached_of_declaratorOf? live copies.declaratorOf?
  have shape := (Program.declaratorOf?_eq_some_iff.mp copies.declaratorOf?).2
  have held := steady.linked.parent?_of_init shape
  refine ⟨attached, held, Tree.Reissued.attached_child steady.linked attached held, ?_,
    .initializer shape⟩
  rw [Node.isIdentifier, copies.spelled, Option.isSome_some]

theorem not_isWithin (copies : Copies p b declarator init name) (steady : p.Steady)
    (live : b ∈ p.scopes.liveIds) {other : NodeId}
    (isDeclarator : (p.node other).isDeclarator = true) (different : other ≠ declarator) :
    p.tree.isWithin other declarator = false := by
  rw [Bool.eq_false_iff]
  intro within
  obtain ⟨child, member, below⟩ := steady.linked.exists_child within different
  have isIdentifier : (p.node child).isIdentifier = true := by
    rw [← Program.node, (Program.declaratorOf?_eq_some_iff.mp copies.declaratorOf?).2] at member
    simp only [Node.children, Option.toList_some, List.mem_cons, List.not_mem_nil,
      or_false] at member
    rcases member with rfl | rfl
    · obtain ⟨d, declared, stands⟩ := steady.sound.exists_stands_of_live live
      have same : (p.binding b).identifier = d.identifier := stands.identifier
      rw [same, Node.isIdentifier, Program.node,
        steady.linked.spelled_of_mem_declared steady.isTop declared, Option.isSome_some]
    · rw [Node.isIdentifier, copies.spelled, Option.isSome_some]
  have same := steady.linked.eq_of_isWithin_identifier isIdentifier below
  rw [same] at isDeclarator
  cases shape : p.node child <;> simp_all [Node.isIdentifier, Node.identifier?, Node.isDeclarator]

theorem wanted?_eq_none (copies : Copies p b declarator init name) (steady : p.Steady)
    (live : b ∈ p.scopes.liveIds) (belongs : p.bindingOf? init = some target)
    (noLink : ¬CopiesBinding p b target) (links : Links) :
    links.wanted? p init = none := by
  obtain ⟨attached, held, -⟩ := copies.place steady live
  rw [Links.wanted?]
  cases used : p.usedBinding? init with
  | none => rfl
  | some start =>
    obtain rfl := eq_of_usedBinding? used belongs
    rw [Option.bind_some, Links.target?]
    cases declared : p.declaratorOf? start with
    | none => rfl
    | some pair =>
      obtain ⟨other, value⟩ := pair
      have notBefore : p.tree.precedes other init = false := by
        by_cases isDeclarator : other = declarator
        · rw [isDeclarator, Bool.eq_false_iff]
          intro before
          have apart := (Tree.not_isWithin_of_precedes before).1
          rw [steady.linked.isWithin_of_parent held] at apart
          cases apart
        · have declares : (p.node other).isDeclarator = true := by
            rw [(Program.declaratorOf?_eq_some_iff.mp declared).2]
            rfl
          have outside := copies.not_isWithin steady live declares isDeclarator
          rw [steady.linked.precedes_child held outside, Bool.eq_false_iff]
          refine fun before =>
            noLink ⟨⟨declarator, init, name, copies, belongs, by simpa [declared]⟩, ?_⟩
          rintro rfl
          rw [copies.declaratorOf?, Option.some.injEq, Prod.mk.injEq] at declared
          exact isDeclarator declared.1.symm
      cases origin : links.origin? p start <;> simp [notBefore]

end Copies

namespace Collapsed

variable (collapsed : Collapsed p (Links.ofProgram p) sites q now) (steady : p.Steady)

include collapsed steady

omit steady in
theorem exists_target {id : NodeId} (attached : p.tree.isWithin id p.root = true)
    (moved : now id ≠ id) :
    id ∈ sites ∧
    ∃ name start expected, q.node (now id) = .identifier name ∧ p.usedBinding? id = some start ∧
      Origin p (Links.ofProgram p) start (Chain.last (Links.ofProgram p).next start) name expected ∧
      q.bindingOf? (now id) = expected := by
  have wants : id ∈ sites ∧ (Links.ofProgram p).wanted? p id ≠ none := by
    by_contra nothing
    exact moved (collapsed.kept attached fun member => by
      by_contra some
      exact nothing ⟨member, some⟩)
  obtain ⟨member, some⟩ := wants
  obtain ⟨name, wanted⟩ := Option.ne_none_iff_exists'.mp some
  obtain ⟨-, shape⟩ := collapsed.given attached member wanted
  obtain ⟨start, expected, used, origin, resolves⟩ := Links.exists_of_wanted? wanted
  refine ⟨member, name, start, expected, shape, used, Links.origin?_eq_some_iff.mp origin, ?_⟩
  rw [← resolves]
  exact collapsed.reissued.given attached moved (by rw [shape]; rfl)

theorem exists_copies (live : b ∈ p.scopes.liveIds) (copies : Copies q b declarator init name) :
    ∃ before oldName, Copies p b declarator before oldName ∧ now before = init ∧
      (now before = before → oldName = name) := by
  have reissued := collapsed.reissued
  have initialized := copies.initialized
  rw [reissued.initialized?_now steady collapsed.steady live, Option.map_eq_some_iff] at initialized
  obtain ⟨⟨other, before⟩, initialized, same⟩ := initialized
  cases same
  have declared := Program.declaratorOf?_of_initialized? initialized
  have held := steady.linked.parent?_of_init (Program.declaratorOf?_eq_some_iff.mp declared).2
  have attached := Tree.Reissued.attached_child steady.linked
    (steady.attached_of_declaratorOf? live declared) held
  have isIdentifier : (p.node before).isIdentifier = true := by
    rw [Program.node, ← reissued.tree.isIdentifier_eq attached, ← Program.node, Node.isIdentifier,
      copies.spelled, Option.isSome_some]
  obtain ⟨oldName, spelled⟩ := Option.isSome_iff_exists.mp isIdentifier
  refine ⟨before, oldName, ⟨?_, initialized, spelled⟩, rfl, fun kept => ?_⟩
  · rw [← reissued.isConstantVariable_eq steady collapsed.steady live declared]
    exact copies.constant
  · have same := reissued.identifier?_kept steady attached kept
    rw [spelled, ← kept, copies.spelled, Option.some.injEq] at same
    exact same.symm

theorem copies_now (live : b ∈ p.scopes.liveIds) (copies : Copies p b declarator init name)
    {newName : String} (spelled : (q.node (now init)).identifier? = some newName) :
    Copies q b declarator (now init) newName where
  constant := by
    rw [collapsed.reissued.isConstantVariable_eq steady collapsed.steady live copies.declaratorOf?]
    exact copies.constant
  initialized := by
    rw [collapsed.reissued.initialized?_now steady collapsed.steady live, copies.initialized]
    rfl
  spelled := spelled

theorem ordered_eq (live : b ∈ p.scopes.liveIds) (copies : Copies p b declarator init name)
    (targetLive : target ∈ p.scopes.liveIds) :
    (q.declaratorOf? target).all (fun (other, _) => q.tree.precedes other declarator) =
      (p.declaratorOf? target).all fun (other, _) => p.tree.precedes other declarator := by
  have reissued := collapsed.reissued
  rw [reissued.declaratorOf?_now steady collapsed.steady targetLive]
  cases declared : p.declaratorOf? target with
  | none => rfl
  | some pair =>
    obtain ⟨other, value⟩ := pair
    have precedes := reissued.tree.precedes_now steady.linked steady.isTop collapsed.steady.linked
      (steady.attached_of_declaratorOf? targetLive declared) (copies.place steady live).1
    rw [reissued.now_declarator steady targetLive declared,
      reissued.now_declarator steady live copies.declaratorOf?] at precedes
    simp only [Option.map_some, Option.all_some, precedes]

theorem not_copies (live : b ∈ p.scopes.liveIds) (noBinding : ∀ target, ¬CopiesBinding p b target)
    (noGlobal : ∀ name, ¬CopiesGlobal p b name) :
    (∀ target, ¬CopiesBinding q b target) ∧ ∀ name, ¬CopiesGlobal q b name := by
  have reissued := collapsed.reissued
  -- The initializer of before belongs to a binding that it cannot be linked to, and is therefore
  -- left alone.
  have alone {declarator init : NodeId} {name : String} (copies : Copies q b declarator init name) :
      ∃ target oldName, Copies p b declarator init oldName ∧ p.bindingOf? init = some target ∧
        q.bindingOf? init = some target := by
    obtain ⟨before, oldName, copied, rfl, -⟩ := collapsed.exists_copies steady live copies
    obtain ⟨-, -, isSite⟩ := copied.place steady live
    cases belongs : p.bindingOf? before with
    | none => exact absurd ⟨declarator, before, copied, belongs⟩ (noGlobal oldName)
    | some target =>
      have kept := collapsed.kept isSite.attached fun _ =>
        copied.wanted?_eq_none steady live belongs (noBinding target) _
      rw [kept]
      exact ⟨target, oldName, copied, belongs, (reissued.kept isSite.attached kept).trans belongs⟩
  refine ⟨fun target copiesBinding => ?_, fun name ⟨declarator, init, copies, unbound⟩ => ?_⟩
  · obtain ⟨declarator, init, name, copies, belongs, ordered⟩ := copiesBinding.copies
    obtain ⟨other, oldName, copies, wasBound, isBound⟩ := alone copies
    rw [belongs, Option.some.injEq] at isBound
    subst isBound
    rw [collapsed.ordered_eq steady live copies (steady.sound.live_of_bindingOf? wasBound)]
      at ordered
    exact noBinding target ⟨⟨declarator, init, oldName, copies, wasBound, ordered⟩,
      copiesBinding.different⟩
  · obtain ⟨target, -, -, -, isBound⟩ := alone copies
    rw [unbound] at isBound
    cases isBound

theorem copiesGlobal_now (live : b ∈ p.scopes.liveIds) (copiesGlobal : CopiesGlobal p b name) :
    CopiesGlobal q b name := by
  obtain ⟨declarator, init, copies, unbound⟩ := copiesGlobal
  obtain ⟨-, -, isSite⟩ := copies.place steady live
  have kept : now init = init := collapsed.kept isSite.attached fun _ => by
    rw [Links.wanted?, Program.usedBinding?, unbound]
    rfl
  have spelled := collapsed.reissued.identifier?_kept steady isSite.attached kept
  rw [copies.spelled, ← kept] at spelled
  have copiesNow := collapsed.copies_now steady live copies spelled
  rw [kept] at copiesNow
  exact ⟨declarator, init, copiesNow, (collapsed.reissued.kept isSite.attached kept).trans unbound⟩

/-- What a binding that copies another one comes to copy: the same one, the global at the end of its
chain, or the binding there. -/
theorem copiesBinding_cases (live : b ∈ p.scopes.liveIds) (copiesBinding : CopiesBinding p b target)
    (ends : Chain.Ends (Links.ofProgram p).next target last) :
    CopiesBinding q b target ∨
      (∃ name, (Links.ofProgram p).globals[last]? = some name ∧ CopiesGlobal q b name) ∨
      (Links.ofProgram p).globals[last]? = none ∧ CopiesBinding q b last := by
  have linked := steady.linked
  have reissued := collapsed.reissued
  obtain ⟨declarator, init, name, copies, belongs, ordered⟩ := copiesBinding.copies
  obtain ⟨-, -, isSite⟩ := copies.place steady live
  have targetLive := steady.sound.live_of_bindingOf? belongs
  by_cases kept : now init = init
  · have spelled := reissued.identifier?_kept steady isSite.attached kept
    have copiesNow :=
      collapsed.copies_now steady live copies (by rw [kept, spelled, copies.spelled])
    rw [kept] at copiesNow
    rw [← collapsed.ordered_eq steady live copies targetLive] at ordered
    exact .inl ⟨⟨declarator, init, name, copiesNow,
      (reissued.kept isSite.attached kept).trans belongs, ordered⟩, copiesBinding.different⟩
  · obtain ⟨-, newName, start, expected, shape, used, origin, means⟩ :=
      collapsed.exists_target isSite.attached kept
    obtain rfl := eq_of_usedBinding? used belongs
    rw [(Chain.ends_last (Links.acyclic linked) start).unique ends] at origin
    have spelled : (q.node (now init)).identifier? = some newName := by
      rw [shape]
      rfl
    have copiesNow := collapsed.copies_now steady live copies spelled
    cases origin with
    | global names => exact .inr (.inl ⟨newName, names, declarator, now init, copiesNow, means⟩)
    | binding unnamed different constant isName =>
      -- The end of the chain is declared in front of all that leads to it.
      have link : Chain.Step (Links.ofProgram p).next b start :=
        ((Links.records_ofProgram p).next b start).mpr ⟨live, copiesBinding⟩
      have chain := Relation.TransGen.head' link ends.reaches
      refine .inr (.inr ⟨unnamed, ⟨declarator, now init, newName, copiesNow, means, ?_⟩, ?_⟩)
      · have lastLive : last ∈ p.scopes.liveIds := by
          rw [← reissued.table.liveIds_eq]
          exact collapsed.steady.sound.live_of_bindingOf? means
        rw [collapsed.ordered_eq steady live copies lastLive]
        cases declared : p.declaratorOf? last with
        | none => rfl
        | some pair =>
          obtain ⟨other, value⟩ := pair
          obtain ⟨_, _, isDeclarator, before⟩ := Links.precedes_of_transGen linked chain declared
          rw [copies.declaratorOf?, Option.some.injEq, Prod.mk.injEq] at isDeclarator
          rw [isDeclarator.1]
          exact before
      · rintro rfl
        exact Links.acyclic linked _ chain

theorem ends_after {start : BindingId} (ends : Chain.Ends (Links.ofProgram p).next start last) :
    (∀ name, (Links.ofProgram p).globals[last]? = some name →
      ∃ last', Chain.Ends (Links.ofProgram q).next start last' ∧
        (Links.ofProgram q).globals[last']? = some name) ∧
    ((Links.ofProgram p).globals[last]? = none →
      Chain.Ends (Links.ofProgram q).next start last ∧
      (Links.ofProgram q).globals[last]? = none) := by
  have before := Links.records_ofProgram p
  have after := Links.records_ofProgram q
  rw [collapsed.reissued.table.liveIds_eq] at after
  have endsAtGlobal {b : BindingId} (live : b ∈ p.scopes.liveIds) {name : String}
      (copies : CopiesGlobal q b name) :
      Chain.Ends (Links.ofProgram q).next b b ∧ (Links.ofProgram q).globals[b]? = some name := by
    refine ⟨.refl ?_, (after.globals b name).mpr ⟨live, copies⟩⟩
    rw [Option.eq_none_iff_forall_ne_some]
    exact fun target isNext => ((after.next b target).mp isNext).2.not_copiesGlobal copies
  obtain ⟨reaches, stops⟩ := ends
  induction reaches using Relation.ReflTransGen.head_induction_on with
  | refl =>
    refine ⟨fun name names => ?_, fun unnamed => ?_⟩
    · obtain ⟨live, copies⟩ := (before.globals last name).mp names
      exact ⟨last, endsAtGlobal live (collapsed.copiesGlobal_now steady live copies)⟩
    · have nothing (live : last ∈ p.scopes.liveIds) :=
        collapsed.not_copies steady live (fun target copies => by
          rw [(before.next last target).mpr ⟨live, copies⟩] at stops
          cases stops) fun name copies => by
            rw [(before.globals last name).mpr ⟨live, copies⟩] at unnamed
            cases unnamed
      refine ⟨.refl ?_, ?_⟩ <;> rw [Option.eq_none_iff_forall_ne_some] <;> intro other isSome
      · obtain ⟨live, copies⟩ := (after.next last other).mp isSome
        exact (nothing live).1 other copies
      · obtain ⟨live, copies⟩ := (after.globals last other).mp isSome
        exact (nothing live).2 other copies
  | @head b c step reaches induction =>
    obtain ⟨live, copies⟩ := (before.next b c).mp step
    rcases collapsed.copiesBinding_cases steady live copies ⟨reaches, stops⟩ with
      same | ⟨name, names, global⟩ | ⟨unnamed, copiesLast⟩
    · have step : Chain.Step (Links.ofProgram q).next b c := (after.next b c).mpr ⟨live, same⟩
      refine ⟨fun name names => ?_, fun unnamed => ?_⟩
      · obtain ⟨last', ends, named⟩ := induction.1 name names
        exact ⟨last', ends.head step, named⟩
      · exact ⟨(induction.2 unnamed).1.head step, (induction.2 unnamed).2⟩
    · refine ⟨fun other otherNames => ?_, fun unnamed => ?_⟩
      · rw [names, Option.some.injEq] at otherNames
        subst otherNames
        exact ⟨b, endsAtGlobal live global⟩
      · rw [names] at unnamed
        cases unnamed
    · refine ⟨fun other names => ?_, fun _ => ?_⟩
      · rw [unnamed] at names
        cases names
      · obtain ⟨ends, stays⟩ := induction.2 unnamed
        exact ⟨.head ((after.next b last).mpr ⟨live, copiesLast⟩) (.refl ends.stops), stays⟩

theorem origin?_after (start : BindingId) :
    (Links.ofProgram q).origin? q start = (Links.ofProgram p).origin? p start := by
  have endsAfter := Chain.ends_last (Links.acyclic collapsed.steady.linked) start
  obtain ⟨ofGlobal, ofBinding⟩ := collapsed.ends_after steady
    (Chain.ends_last (Links.acyclic steady.linked) start)
  simp only [Links.origin?]
  cases named : (Links.ofProgram p).globals[Chain.last (Links.ofProgram p).next start]? with
  | some name =>
    obtain ⟨last, ends, namedAfter⟩ := ofGlobal name named
    rw [endsAfter.unique ends, namedAfter]
  | none =>
    obtain ⟨ends, unnamed⟩ := ofBinding named
    simp only [endsAfter.unique ends, unnamed, collapsed.reissued.isConstant_eq,
      collapsed.reissued.name_eq]

theorem wanted?_eq_none {site : NodeId} (isSite : IsSite p site) (member : site ∈ sites) :
    (Links.ofProgram q).wanted? q (now site) = none := by
  have reissued := collapsed.reissued
  by_cases kept : now site = site
  · -- The place has been passed over, and has the target that it had before.
    rw [kept, Links.wanted?, reissued.usedBinding?_kept isSite.attached kept]
    have wanted : (Links.ofProgram p).wanted? p site = none := by
      by_contra some
      obtain ⟨name, wanted⟩ := Option.ne_none_iff_exists'.mp some
      exact (collapsed.given isSite.attached member wanted).1 kept
    cases used : p.usedBinding? site with
    | none => rfl
    | some start =>
      rw [Links.wanted?, used] at wanted
      have same := Links.target?_now reissued steady collapsed.steady (Links.ofProgram p)
        isSite.attached (live_of_usedBinding? steady used)
      rw [kept] at same
      rw [Option.bind_some] at wanted ⊢
      rw [← wanted, ← same, Links.target?, Links.target?, collapsed.origin?_after steady,
        Links.origin?_eq reissued]
  · -- What has been given anew belongs to nothing or to the end of a chain.
    obtain ⟨-, name, start, expected, -, -, origin, belongs⟩ :=
      collapsed.exists_target isSite.attached kept
    rw [Links.wanted?, Program.usedBinding?, belongs]
    cases origin with
    | global => rfl
    | binding unnamed =>
      have stops := (Chain.ends_last (Links.acyclic steady.linked) start).stops
      generalize Chain.last (Links.ofProgram p).next start = last at *
      have noOrigin : (Links.ofProgram p).origin? p last = none := by
        simp [Links.origin?, Chain.last_eq_self stops, unnamed]
      rw [Option.bind_eq_none_iff]
      intro other isUsed
      obtain ⟨rfl, -⟩ := Option.filter_eq_some_iff.mp isUsed |>.imp_left Option.some.inj
      rw [Links.target?, collapsed.origin?_after steady, noOrigin]
      cases q.declaratorOf? last <;> rfl

end Collapsed

/-! ### The places of the two rules -/

/--
A choice of places at which aliases can be collapsed. Giving identifiers anew brings no further
place. -/
structure Choice (places : Program → List NodeId) : Prop where
  areSites : ∀ {p}, p.Steady → ∀ site ∈ places p, IsSite p site
  distinct : ∀ {p}, p.Steady → (places p).Nodup
  exists_before : ∀ {p q now}, p.Reissued q now → p.Steady → q.Steady →
    ∀ site ∈ places q, ∃ before ∈ places p, now before = site

theorem mem_nodes_iff (steady : p.Steady) {id : NodeId} :
    id ∈ p.nodes ↔ p.tree.isWithin id p.root = true :=
  steady.linked.mem_descendants_iff steady.isTop.allocated

theorem namedInit?_eq_some_iff : namedInit? p declarator = some init ↔
    (∃ target, p.node declarator = .variableDeclarator target (some init)) ∧
    (p.node init).isIdentifier = true := by
  unfold namedInit?
  split
  · rename_i target value shape
    rw [Option.ite_none_right_eq_some, shape]
    simp only [Option.some.injEq, Node.variableDeclarator.injEq]
    constructor
    · rintro ⟨isIdentifier, rfl⟩
      exact ⟨⟨target, rfl, rfl⟩, isIdentifier⟩
    · rintro ⟨⟨-, -, rfl⟩, isIdentifier⟩
      exact ⟨isIdentifier, rfl⟩
  · rename_i other
    simp only [reduceCtorEq, false_iff, not_and]
    rintro ⟨target, shape⟩
    exact absurd shape (other target init)

theorem choice_initializers : Choice fun p => p.nodes.filterMap (namedInit? p) where
  areSites {p} steady init member := by
    obtain ⟨declarator, isNode, named⟩ := List.mem_filterMap.mp member
    obtain ⟨⟨target, shape⟩, isIdentifier⟩ := namedInit?_eq_some_iff.mp named
    have held := steady.linked.parent?_of_init shape
    exact ⟨Tree.Reissued.attached_child steady.linked ((mem_nodes_iff steady).mp isNode) held,
      isIdentifier, .initializer shape⟩
  distinct {p} steady := by
    refine List.Nodup.filterMap (fun first second init isFirst isSecond => ?_)
      (steady.linked.nodup_descendants steady.isTop.allocated)
    have held {declarator : NodeId} (named : namedInit? p declarator = some init) :
        p.tree.parent? init = some declarator := by
      obtain ⟨⟨target, shape⟩, -⟩ := namedInit?_eq_some_iff.mp named
      exact steady.linked.parent?_of_init shape
    exact Option.some.inj ((held isFirst).symm.trans (held isSecond))
  exists_before {p q now} reissued steady after site member := by
    obtain ⟨declarator, isNode, named⟩ := List.mem_filterMap.mp member
    obtain ⟨⟨target, shape⟩, isIdentifier⟩ := namedInit?_eq_some_iff.mp named
    have isWithin := (mem_nodes_iff after).mp isNode
    rw [reissued.root] at isWithin
    obtain ⟨before, attached, rfl⟩ := reissued.tree.exists_before isWithin
    have kept : now before = before := by
      by_contra moved
      have isName := reissued.tree.isIdentifier_now attached moved
      rw [← Program.node, shape] at isName
      cases isName
    rw [kept, Program.node, reissued.tree.node attached kept, Node.map_eq_declarator_iff] at shape
    obtain ⟨_, value, shape, -, isInit⟩ := shape
    obtain ⟨init, rfl, rfl⟩ := Option.map_eq_some_iff.mp isInit
    have held := steady.linked.parent?_of_init shape
    rw [Program.node, reissued.tree.isIdentifier_eq (Tree.Reissued.attached_child steady.linked
      attached held)] at isIdentifier
    exact ⟨init, List.mem_filterMap.mpr ⟨before, (mem_nodes_iff steady).mpr attached,
      namedInit?_eq_some_iff.mpr ⟨⟨_, shape⟩, isIdentifier⟩⟩, rfl⟩

theorem isUseSite_iff (steady : p.Steady) {site : NodeId} : isUseSite p site = true ↔
    (p.node site).isIdentifier = true ∧ ((∃ call arguments, p.node call = .call site arguments) ∨
      ∃ member key computed, p.node member = .member site key computed) := by
  have held (parent : NodeId) (member : site ∈ (p.node parent).children) :
      p.tree.parent? site = some parent :=
    steady.linked.mem_children.mp member
  rw [isUseSite, Bool.and_eq_true]
  refine and_congr_right fun _ => ?_
  constructor
  · intro position
    split at position
    · rename_i callee arguments above
      obtain ⟨call, -, shape⟩ := Option.map_eq_some_iff.mp above
      exact .inl ⟨call, arguments, of_decide_eq_true position ▸ shape⟩
    · rename_i base key computed above
      obtain ⟨member, -, shape⟩ := Option.map_eq_some_iff.mp above
      exact .inr ⟨member, key, computed, of_decide_eq_true position ▸ shape⟩
    · cases position
  · rintro (⟨call, arguments, shape⟩ | ⟨member, key, computed, shape⟩)
    · rw [held call (by rw [shape]; simp [Node.children]), Option.map_some, shape]
      simp
    · rw [held member (by rw [shape]; simp [Node.children]), Option.map_some, shape]
      simp

theorem choice_uses : Choice fun p => p.nodes.filter (isUseSite p) where
  areSites {p} steady site member := by
    obtain ⟨isNode, isUse⟩ := List.mem_filter.mp member
    obtain ⟨isIdentifier, ⟨call, arguments, shape⟩ | ⟨member, key, computed, shape⟩⟩ :=
      (isUseSite_iff steady).mp isUse
    · exact ⟨(mem_nodes_iff steady).mp isNode, isIdentifier, .callee shape⟩
    · exact ⟨(mem_nodes_iff steady).mp isNode, isIdentifier, .base shape⟩
  distinct {p} steady := (steady.linked.nodup_descendants steady.isTop.allocated).filter _
  exists_before {p q now} reissued steady after site member := by
    obtain ⟨isNode, isUse⟩ := List.mem_filter.mp member
    obtain ⟨isIdentifier, position⟩ := (isUseSite_iff after).mp isUse
    have isWithin := (mem_nodes_iff after).mp isNode
    rw [reissued.root] at isWithin
    obtain ⟨site, attached, rfl⟩ := reissued.tree.exists_before isWithin
    rw [Program.node, reissued.tree.isIdentifier_eq attached] at isIdentifier
    -- What holds the place now has held it before.
    have before (holder : NodeId) (member : now site ∈ (q.node holder).children) :
        site ∈ (p.node holder).children ∧ q.node holder = (p.node holder).map now := by
      have member := reissued.tree.mem_children_before steady.linked after.linked attached member
      exact ⟨member, reissued.tree.node_parent steady.linked steady.isTop attached
        (steady.linked.mem_children.mp member)⟩
    have same {holder other : NodeId} (held : site ∈ (p.node holder).children)
        (member : other ∈ (p.node holder).children) (equal : now other = now site) : other = site :=
      reissued.tree.eq_of_mem_children steady.linked
        (Tree.Reissued.attached_parent steady.linked steady.isTop attached
          (steady.linked.mem_children.mp held)) held
        member equal
    refine ⟨site, List.mem_filter.mpr ⟨(mem_nodes_iff steady).mpr attached,
      (isUseSite_iff steady).mpr ⟨isIdentifier, ?_⟩⟩, rfl⟩
    rcases position with ⟨call, arguments, shape⟩ | ⟨member, key, computed, shape⟩
    · obtain ⟨held, isNow⟩ := before call (by rw [shape]; simp [Node.children])
      rw [isNow, Node.map_eq_call_iff] at shape
      obtain ⟨callee, others, shape, equal, -⟩ := shape
      rw [same held (by rw [shape]; simp [Node.children]) equal] at shape
      exact .inl ⟨call, others, shape⟩
    · obtain ⟨held, isNow⟩ := before member (by rw [shape]; simp [Node.children])
      rw [isNow, Node.map_eq_member_iff] at shape
      obtain ⟨base, other, shape, equal, -⟩ := shape
      rw [same held (by rw [shape]; simp [Node.children]) equal] at shape
      exact .inr ⟨member, other, computed, shape⟩

theorem exists_choice {rule : Rule} (isAlias : rule = .initializerChain ∨ rule = .aliasCollapse) :
    ∃ places, Choice places ∧ ∀ w, rule.run w = collapseAt (places w.program) w := by
  rcases isAlias with rfl | rfl
  · exact ⟨_, choice_initializers, fun _ => rfl⟩
  · exact ⟨_, choice_uses, fun _ => rfl⟩

end Alias

/-- Collapsing aliases leaves the program with identifiers given anew, each by what is at the end of
the chain of links that starts at the binding of the old one: a global, or a binding that is never
written. Links make no circles, and doing it again changes nothing. -/
theorem Rule.collapses_aliases {rule : Rule}
    (isAlias : rule = .initializerChain ∨ rule = .aliasCollapse) {p : Program} (reached : p.Reached)
    (verified : p.verify = .ok ()) (wellBound : p.tree.WellBound) (c : Context) :
    Chain.Acyclic (Alias.Links.ofProgram p).next ∧
      ∃ changed w now, rule.run ⟨p, c⟩ = .ok changed w ∧ p.Reissued w.program now ∧
        (∀ site, p.isAttached site = true → now site ≠ site → ∃ name start last,
          p.usedBinding? site = some start ∧ Chain.Ends (Alias.Links.ofProgram p).next start last ∧
          w.program.node (now site) = .identifier name ∧
          ((Alias.Links.ofProgram p).globals[last]? = some name ∧
            w.program.bindingOf? (now site) = none ∨
            (Alias.Links.ofProgram p).globals[last]? = none ∧
            w.program.bindingOf? (now site) = some last ∧
              (w.program.binding last).name = name ∧ (w.program.binding last).isConstant = true)) ∧
        ∀ c, rule.run ⟨w.program, c⟩ = .ok false ⟨w.program, c⟩ := by
  have steady : p.Steady := ⟨reached.sound verified, wellBound⟩
  have acyclic := Alias.Links.acyclic steady.linked
  obtain ⟨places, choice, runs⟩ := Alias.exists_choice isAlias
  obtain ⟨changed, q, c', now, ran, collapsed⟩ :=
    Alias.exists_collapsed steady (choice.areSites steady) (choice.distinct steady) c
  refine ⟨acyclic, changed, ⟨q, c'⟩, now, (runs _).trans ran, collapsed.reissued,
    fun site attached moved => ?_,
    fun c => (runs _).trans (Alias.collapseAt_of_none fun site member => ?_)⟩
  · rw [Program.isAttached_eq steady.linked steady.isTop.top] at attached
    obtain ⟨-, name, start, expected, shape, used, origin, belongs⟩ :=
      collapsed.exists_target attached moved
    refine ⟨name, start, _, used, Chain.ends_last acyclic start, shape, ?_⟩
    cases origin with
    | global names => exact .inl ⟨names, belongs⟩
    | binding unnamed different constant isName =>
      refine .inr ⟨unnamed, belongs, ?_, ?_⟩
      · rw [collapsed.reissued.name_eq, isName]
      · rw [collapsed.reissued.isConstant_eq, constant]
  · obtain ⟨before, isSite, rfl⟩ := choice.exists_before collapsed.reissued steady
      collapsed.steady site member
    exact collapsed.wanted?_eq_none steady (choice.areSites steady before isSite) isSite

/-- The tree of `var c = console; var d = c; d.log;`. -/
def Alias.renamedTwice : Tree :=
  ⟨#[⟨.identifier "c", some ⟨2⟩⟩, ⟨.identifier "console", some ⟨2⟩⟩,
    ⟨.variableDeclarator ⟨0⟩ (some ⟨1⟩), some ⟨3⟩⟩, ⟨.variableDeclaration .var [⟨2⟩], some ⟨12⟩⟩,
    ⟨.identifier "d", some ⟨6⟩⟩, ⟨.identifier "c", some ⟨6⟩⟩, ⟨.variableDeclarator ⟨4⟩ (some ⟨5⟩),
      some ⟨7⟩⟩, ⟨.variableDeclaration .var [⟨6⟩], some ⟨12⟩⟩,
    ⟨.identifier "d", some ⟨10⟩⟩, ⟨.identifier "log", some ⟨10⟩⟩,
    ⟨.member ⟨8⟩ ⟨9⟩ false, some ⟨11⟩⟩, ⟨.expressionStatement ⟨10⟩, some ⟨12⟩⟩,
    ⟨.program [⟨3⟩, ⟨7⟩, ⟨11⟩], none⟩]⟩

theorem Alias.exists_wanted_renamedTwice :
    ∃ p, Program.ofTree renamedTwice ⟨12⟩ = .ok p ∧ p.Steady ∧
      p.tree = renamedTwice ∧ p.root = ⟨12⟩ ∧
        (Links.ofProgram p).wanted? p ⟨8⟩ = some "console" := by
  have linked : renamedTwice.Linked := Tree.linked_of_checks (by decide)
  have isTop : renamedTwice.IsTop ⟨12⟩ := ⟨by decide, by decide⟩
  obtain ⟨scopes, made, steady⟩ := Program.exists_steady renamedTwice ⟨12⟩ linked isTop
    (Tree.wellBound_of_bindsWell (by decide)) rfl
  have usesC : (renamedTwice.lexicon ⟨12⟩).meaning? ⟨5⟩ = some ⟨⟨12⟩, "c", .var, ⟨2⟩, ⟨0⟩⟩ := by
    decide
  have usesD : (renamedTwice.lexicon ⟨12⟩).meaning? ⟨8⟩ = some ⟨⟨12⟩, "d", .var, ⟨6⟩, ⟨4⟩⟩ := by
    decide
  have usesNone : (renamedTwice.lexicon ⟨12⟩).meaning? ⟨1⟩ = none := by decide
  have unwritten := Program.not_writes linked isTop (by decide) (by decide)
  set p : Program := ⟨renamedTwice, ⟨12⟩, scopes, false⟩ with isProgram
  have sound := steady.sound
  obtain ⟨c, standsC, noWriteC, belongsC⟩ := sound.exists_unwritten (unwritten _) usesC
  obtain ⟨d, standsD, noWriteD, belongsD⟩ := sound.exists_unwritten (unwritten _) usesD
  have meansC : p.bindingOf? ⟨5⟩ = some c := belongsC _ usesC
  have meansD : p.bindingOf? ⟨8⟩ = some d := belongsD _ usesD
  have ofC : Copies p c ⟨2⟩ ⟨1⟩ "console" :=
    ⟨(sound.isConstantVariable_eq standsC noWriteC).trans rfl,
      Program.initialized?_of_stands standsC rfl, rfl⟩
  have ofD : Copies p d ⟨6⟩ ⟨5⟩ "c" :=
    ⟨(sound.isConstantVariable_eq standsD noWriteD).trans rfl,
      Program.initialized?_of_stands standsD rfl, rfl⟩
  have copiesGlobal : CopiesGlobal p c "console" :=
    ⟨_, _, ofC, sound.bindingOf?_eq_none_iff.mpr usesNone⟩
  have different : c ≠ d := by
    rintro rfl
    exact absurd (ofC.unique ofD).1 (by decide)
  have copiesBinding : CopiesBinding p d c :=
    ⟨⟨_, _, _, ofD, meansC, by rw [ofC.declaratorOf?]; rfl⟩, different⟩
  -- `d` is linked to `c`, and `c` to the global.
  have records := Links.records_ofProgram p
  have step : Chain.Step (Links.ofProgram p).next d c :=
    (records.next d c).mpr ⟨sound.live_of_bindingOf? meansD, copiesBinding⟩
  have stops : (Links.ofProgram p).next[c]? = none := by
    rw [Option.eq_none_iff_forall_ne_some]
    exact fun target isNext => ((records.next c target).mp isNext).2.not_copiesGlobal copiesGlobal
  have last : Chain.last (Links.ofProgram p).next d = c :=
    (Chain.Ends.head step (.refl stops)).last_eq
  have origin : (Links.ofProgram p).origin? p d = some ("console", none) := by
    rw [Links.origin?_eq_some_iff, last]
    exact .global ((records.globals c _).mpr ⟨sound.live_of_bindingOf? meansC, copiesGlobal⟩)
  have unbound : p.resolve? ⟨8⟩ "console" = none := by
    rw [sound.resolve?_eq (show renamedTwice.isWithin ⟨8⟩ ⟨12⟩ = true by decide)]
    rfl
  have used : p.usedBinding? ⟨8⟩ = some d :=
    Option.filter_eq_some_iff.mpr ⟨meansD, by simp [Program.binding, standsD.identifier]⟩
  refine ⟨p, made, steady, rfl, rfl, ?_⟩
  rw [Links.wanted?, used, Option.bind_some, Links.target?, ofD.declaratorOf?, origin]
  simp only [Option.bind_eq_bind, Option.bind_some, unbound]
  rfl

theorem Rule.exists_collapses_aliases :
    ∃ p changed w now, Program.ofTree Alias.renamedTwice ⟨12⟩ = .ok p ∧
      Chain.Acyclic (Alias.Links.ofProgram p).next ∧
        run .aliasCollapse ⟨p, default⟩ = .ok changed w ∧ p.Reissued w.program now ∧
          now ⟨8⟩ ≠ ⟨8⟩ ∧ w.program.node (now ⟨8⟩) = .identifier "console" ∧
            run .aliasCollapse ⟨w.program, default⟩ = .ok false ⟨w.program, default⟩ := by
  obtain ⟨p, made, steady, isTree, isRoot, wanted⟩ := Alias.exists_wanted_renamedTwice
  have linked : Alias.renamedTwice.Linked := Tree.linked_of_checks (by decide)
  obtain ⟨acyclic, changed, w, now, ran, reissued, sites, again⟩ :=
    collapses_aliases (.inr rfl) (.made linked ⟨by decide, by decide⟩ made) steady.sound.verify
      steady.wellBound default
  -- The use of `d` is a place with a target.
  obtain ⟨_, q, _, next, collapses, collapsed⟩ := Alias.exists_collapsed steady
    (Alias.choice_uses.areSites steady) (Alias.choice_uses.distinct steady) default
  have same : EStateM.Result.ok changed w = .ok _ _ := ran.symm.trans collapses
  cases same
  have attached : p.tree.isWithin ⟨8⟩ p.root = true := by
    rw [isTree, isRoot]
    decide
  have isUse : ⟨8⟩ ∈ p.nodes.filter (Alias.isUseSite p) :=
    List.mem_filter.mpr ⟨(Alias.mem_nodes_iff steady).mpr attached, (Alias.isUseSite_iff steady).mpr
      ⟨by rw [Program.node, isTree]; rfl,
        .inr ⟨⟨10⟩, ⟨9⟩, false, by rw [Program.node, isTree]; rfl⟩⟩⟩
  obtain ⟨moved, spelled⟩ := collapsed.given attached isUse wanted
  rw [← reissued.tree.unique steady.linked steady.isTop collapsed.reissued.tree attached]
    at moved spelled
  exact ⟨p, changed, _, now, made, acyclic, ran, reissued, moved, spelled, again default⟩

end Unravel
