import Unravel.Proofs.Program.Reissued
import Unravel.Proofs.Simplify.Links
import Unravel.Proofs.Simplify.Run

/-!
Collapsing the aliases at some places. Each place that has a target is given anew by the name of the
target, and no other one (`Alias.exists_collapsed`): the table is never made anew, so that the links
of the start stay good.
-/

namespace Unravel

namespace Alias

variable {p q r : Program} {now next : NodeId → NodeId} {links : Links} {site : NodeId}
  {done sites : List NodeId} {name : String} {b start : BindingId} {c : Context}

def Links.wanted? (links : Links) (p : Program) (site : NodeId) : Option String :=
  (p.usedBinding? site).bind (links.target? p site)

/-- Places at which aliases can be collapsed: identifiers of the program that are read. -/
structure IsSite (p : Program) (site : NodeId) : Prop where
  attached : p.tree.isWithin site p.root = true
  isIdentifier : (p.node site).isIdentifier = true
  isRead : p.tree.IsRead site

theorem live_of_usedBinding? (steady : p.Steady) (used : p.usedBinding? site = some start) :
    start ∈ p.scopes.liveIds :=
  steady.sound.live_of_bindingOf? (Option.filter_eq_some_iff.mp used).1

theorem eq_of_usedBinding? (used : p.usedBinding? site = some start)
    (belongs : p.bindingOf? site = some b) :
    start = b :=
  Option.some.inj ((Option.filter_eq_some_iff.mp used).1.symm.trans belongs)

/-! ### What links lead to, wherever identifiers have been given anew -/

section Reissued

variable (reissued : p.Reissued q now)

include reissued

theorem Links.origin?_eq (links : Links) (b : BindingId) :
    links.origin? q b = links.origin? p b := by
  simp only [Links.origin?, reissued.isConstant_eq, reissued.name_eq]

variable (steady : p.Steady) (after : q.Steady)

include steady after

theorem Links.target?_now (links : Links) (attached : p.tree.isWithin site p.root = true)
    (live : b ∈ p.scopes.liveIds) : links.target? q (now site) b = links.target? p site b := by
  rw [Links.target?, Links.target?, reissued.declaratorOf?_now steady after live,
    Links.origin?_eq reissued]
  cases declared : p.declaratorOf? b with
  | none => rfl
  | some pair =>
    obtain ⟨declarator, init⟩ := pair
    have declaratorAttached := steady.attached_of_declaratorOf? live declared
    have precedes := reissued.tree.precedes_now steady.linked steady.isTop after.linked
      declaratorAttached attached
    rw [reissued.now_declarator steady live declared] at precedes
    simp only [Option.map_some, Option.bind_eq_bind, Option.bind_some, precedes,
      reissued.resolve?_now steady after attached]

theorem Links.wanted?_kept (links : Links) (attached : p.tree.isWithin site p.root = true)
    (kept : now site = site) :
    links.wanted? q site = links.wanted? p site := by
  rw [Links.wanted?, Links.wanted?, reissued.usedBinding?_kept attached kept]
  cases used : p.usedBinding? site with
  | none => rfl
  | some start =>
    have same := Links.target?_now reissued steady after links attached
      (live_of_usedBinding? steady used)
    rwa [kept] at same

theorem IsSite.reissue (isSite : IsSite p site) : IsSite q (now site) where
  attached := reissued.attached_now isSite.attached
  isIdentifier := (reissued.tree.isIdentifier_eq isSite.attached).trans isSite.isIdentifier
  isRead :=
    (reissued.tree.isRead_now steady.linked steady.isTop after.linked isSite.attached).mpr
      isSite.isRead

end Reissued

/-! ### The places one after the other -/

structure Collapsed (p : Program) (links : Links) (done : List NodeId) (q : Program)
    (now : NodeId → NodeId) :
    Prop where
  reissued : p.Reissued q now
  steady : q.Steady
  kept : ∀ {id}, p.tree.isWithin id p.root = true → (id ∈ done → links.wanted? p id = none) →
    now id = id
  given : ∀ {id name}, p.tree.isWithin id p.root = true → id ∈ done →
    links.wanted? p id = some name →
    now id ≠ id ∧ q.node (now id) = .identifier name

theorem Collapsed.refl (steady : p.Steady) (links : Links) : Collapsed p links [] p fun id => id :=
  ⟨.refl p, steady, fun _ _ => rfl, fun _ member => by cases member⟩

namespace Collapsed

variable (collapsed : Collapsed p links done q now) (steady : p.Steady)

include collapsed

/-- A place without a target stays. -/
theorem skip (nothing : links.wanted? p site = none) :
    Collapsed p links (done ++ [site]) q now where
  reissued := collapsed.reissued
  steady := collapsed.steady
  kept attached none := collapsed.kept attached fun member => none (List.mem_append_left _ member)
  given {id name} attached member wanted := by
    refine collapsed.given attached ?_ wanted
    rcases List.mem_append.mp member with member | member
    · exact member
    · rw [List.mem_singleton.mp member, nothing] at wanted
      cases wanted

include steady

/-- A place with a target is given anew. -/
theorem replace {piece : NodeId} (isSite : IsSite p site) (isNext : site ∉ done)
    (wanted : links.wanted? p site = some name)
    (further : q.Reissued r (Node.exchange site piece)) (isNew : ¬q.tree.Allocated piece)
    (after : r.Steady) (shape : r.node piece = .identifier name) :
    Collapsed p links (done ++ [site]) r fun id => Node.exchange site piece (now id) := by
  have kept : now site = site := collapsed.kept isSite.attached fun member => absurd member isNext
  have stays {id : NodeId} (attached : p.tree.isWithin id p.root = true) (different : id ≠ site) :
      Node.exchange site piece (now id) = now id := by
    refine Node.exchange_of_ne fun same => different ?_
    exact collapsed.reissued.tree.injective attached isSite.attached (same.trans kept.symm)
  refine ⟨collapsed.reissued.trans steady collapsed.steady further, after,
    fun {id} attached none => ?_, fun {id name'} attached member wants => ?_⟩
  · have different : id ≠ site := by
      rintro rfl
      rw [none (by simp)] at wanted
      cases wanted
    rw [stays attached different]
    exact collapsed.kept attached fun member => none (List.mem_append_left _ member)
  · by_cases isLast : id = site
    · subst isLast
      rw [wanted, Option.some.injEq] at wants
      subst wants
      have isPiece : Node.exchange id piece (now id) = piece := by
        rw [kept, Node.exchange, if_pos rfl]
      rw [isPiece]
      refine ⟨?_, shape⟩
      rintro rfl
      exact isNew (collapsed.steady.linked.allocated_of_isWithin
        (kept ▸ collapsed.reissued.attached_now attached) collapsed.steady.isTop.allocated)
    · rw [stays attached isLast]
      have isBefore : id ∈ done :=
        (List.mem_append.mp member).resolve_right
          fun isLater => isLast (List.mem_singleton.mp isLater)
      obtain ⟨moved, spelled⟩ := collapsed.given attached isBefore wants
      have same := further.identifier?_kept collapsed.steady
        (collapsed.reissued.attached_now attached) (stays attached isLast)
      rw [spelled] at same
      refine ⟨moved, ?_⟩
      cases found : r.node (now id) <;> simp_all [Node.identifier?]

end Collapsed

/-- Without a target, nothing happens. -/
theorem collapse_of_none (nothing : links.wanted? p site = none) :
    collapse links site ⟨p, c⟩ = .ok false ⟨p, c⟩ := by
  rw [collapse, SimplifyM.program_bind]
  rw [Links.wanted?] at nothing
  simp only [nothing]
  rfl

theorem exists_collapse_of_some (wanted : links.wanted? p site = some name) {piece : NodeId}
    (isPiece : (Tree.identifier name p.tree).1 = piece)
    (replaced : Program.replace { p with tree := (Tree.identifier name p.tree).2 } site piece =
      .ok (piece, q)) :
    ∃ c', collapse links site ⟨p, c⟩ = .ok true ⟨q, c'⟩ := by
  rw [collapse, SimplifyM.program_bind]
  rw [Links.wanted?] at wanted
  simp only [wanted]
  rw [SimplifyM.build_bind]
  have put : SimplifyM.replace site piece ⟨{ p with tree := (Tree.identifier name p.tree).2 }, c⟩ =
      .ok piece ⟨q, c⟩ := by
    rw [SimplifyM.replace, SimplifyM.edit, replaced]
  dsimp only
  rw [isPiece, SimplifyM.bind_of_ok _ put, SimplifyM.record_bind]
  exact ⟨_, rfl⟩

theorem ifAttached_of_attached {step : SimplifyM Bool} (attached : p.isAttached site = true) :
    SimplifyM.ifAttached site step ⟨p, c⟩ = step ⟨p, c⟩ := by
  rw [SimplifyM.ifAttached, SimplifyM.program_bind, if_pos attached]

/--
One place: it stays if it has no target, and is given anew by the name of its target otherwise. -/
theorem exists_collapse (collapsed : Collapsed p links done q now) (steady : p.Steady)
    (isSite : IsSite p site) (isNext : site ∉ done) : ∃ changed r c' next,
      SimplifyM.ifAttached site (collapse links site) ⟨q, c⟩ = .ok changed ⟨r, c'⟩ ∧
        Collapsed p links (done ++ [site]) r next := by
  have reissued := collapsed.reissued
  have kept : now site = site := collapsed.kept isSite.attached fun member => absurd member isNext
  have isSiteNow := isSite.reissue reissued steady collapsed.steady
  have same := links.wanted?_kept reissued steady collapsed.steady isSite.attached kept
  rw [kept] at isSiteNow
  have attached : q.isAttached site = true := by
    rw [Program.isAttached_eq collapsed.steady.linked collapsed.steady.isTop.top]
    exact isSiteNow.attached
  rw [ifAttached_of_attached attached]
  cases wanted : links.wanted? p site with
  | none => exact ⟨false, q, c, now, collapse_of_none (same.trans wanted), collapsed.skip wanted⟩
  | some name =>
    obtain ⟨start, used, -⟩ := Option.bind_eq_some_iff.mp (same.trans wanted)
    obtain ⟨r, replaced, after, further, shape⟩ := collapsed.steady.exists_reissue
      isSiteNow.attached isSiteNow.isIdentifier isSiteNow.isRead used name
    obtain ⟨c', ran⟩ := exists_collapse_of_some (c := c) (same.trans wanted) rfl replaced
    refine ⟨true, r, c', _, ran, collapsed.replace steady isSite isNext wanted further
      ?_ after shape⟩
    exact q.tree.not_allocated_next

theorem exists_anyChange (collapsed : Collapsed p links done q now) (steady : p.Steady)
    (areSites : ∀ site ∈ sites, IsSite p site) (distinct : (done ++ sites).Nodup) :
    ∃ changed r c' next,
      SimplifyM.anyChange sites (fun site => SimplifyM.ifAttached site (collapse links site))
        ⟨q, c⟩ =
          .ok changed ⟨r, c'⟩ ∧
        Collapsed p links (done ++ sites) r next := by
  induction sites generalizing q now done c with
  | nil =>
    rw [List.append_nil]
    exact ⟨false, q, c, now, rfl, collapsed⟩
  | cons site rest induction =>
    rw [List.forall_mem_cons] at areSites
    have isNext : site ∉ done := fun member =>
      (List.nodup_append.mp distinct).2.2 site member site (List.mem_cons_self ..) rfl
    rw [List.append_cons] at distinct ⊢
    obtain ⟨first, between, c₁, next₁, stepped, collapsed⟩ :=
      exists_collapse (c := c) collapsed steady areSites.1 isNext
    obtain ⟨others, r, c₂, next₂, ran, collapsed⟩ := induction (c := c₁) collapsed
      areSites.2 distinct
    refine ⟨first || others, r, c₂, next₂, ?_, collapsed⟩
    rw [SimplifyM.anyChange_cons, SimplifyM.bind_of_ok _ stepped, SimplifyM.bind_of_ok _ ran]
    rfl

theorem exists_collapsed (steady : p.Steady) (areSites : ∀ site ∈ sites, IsSite p site)
    (distinct : sites.Nodup) (c : Context) :
    ∃ changed q c' now, collapseAt sites ⟨p, c⟩ = .ok changed ⟨q, c'⟩ ∧
      Collapsed p (Links.ofProgram p) sites q now :=
  exists_anyChange (.refl steady _) steady areSites (by simpa using distinct)

theorem collapseAt_of_none (nothing : ∀ site ∈ sites, (Links.ofProgram p).wanted? p site = none) :
    collapseAt sites ⟨p, c⟩ = .ok false ⟨p, c⟩ := by
  rw [collapseAt, SimplifyM.program_bind]
  dsimp only
  generalize Links.ofProgram p = links at *
  induction sites with
  | nil => rfl
  | cons site rest induction =>
    rw [List.forall_mem_cons] at nothing
    have stays : SimplifyM.ifAttached site (collapse links site) ⟨p, c⟩ = .ok false ⟨p, c⟩ := by
      rw [SimplifyM.ifAttached, SimplifyM.program_bind]
      split
      · exact collapse_of_none nothing.1
      · rfl
    rw [SimplifyM.anyChange_cons, SimplifyM.bind_of_ok _ stays,
      SimplifyM.bind_of_ok _ (induction nothing.2)]
    rfl

end Alias

end Unravel
