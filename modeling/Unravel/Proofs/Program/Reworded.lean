import Unravel.Proofs.Eval.Outside
import Unravel.Proofs.Program.Change
import Unravel.Proofs.Program.Reissued
import Unravel.Proofs.Simplify.Run

/-!
Programs in which uses of names have been put in other words (`Program.Reworded`): in the place of
each of some identifiers that read or write a variable stands a new node that holds nothing. The
nodes around hold the one instead of the other, nothing else has moved, and every name means at
every place what it meant before. Putting one such node into the place of an identifier is a change
of this kind and does not fail (`Program.Steady.exists_reword`).
-/

namespace Unravel

namespace Scopes

theorem find?_detach (s : Scopes) (id owner : NodeId) (name : String) :
    (s.detach id).find? owner name = s.find? owner name := by
  rw [detach]
  split <;> rfl

theorem find?_attachUse (s : Scopes) (t : Tree) (id owner : NodeId) (name : String) :
    (s.attachUse t id).find? owner name = s.find? owner name := by
  rw [attachUse]
  split
  · rfl
  · dsimp only
    split <;> rfl

end Scopes

namespace Program

variable {p q r : Program} {now next : NodeId → NodeId} {id site piece : NodeId} {name : String}
  {grown : Tree}

/-- Identifiers in use have given way to new nodes, each in the place of its identifier. -/
structure Reworded (p q : Program) (now : NodeId → NodeId) : Prop where
  root : q.root = p.root
  size : p.tree.size ≤ q.tree.size
  attached : ∀ {id}, p.isAttached id = true → q.isAttached (now id) = true
  node : ∀ {id}, p.isAttached id = true → now id = id → q.node id = (p.node id).map now
  moved : ∀ {id}, p.isAttached id = true → now id ≠ id →
    (p.node id).isIdentifier = true ∧ (p.tree.role id).isUse = true ∧ ¬p.tree.Allocated (now id)
  role : ∀ {id}, p.isAttached id = true → q.tree.role (now id) = p.tree.role id
  sight : ∀ {id}, p.isAttached id = true → q.tree.sight (now id) = p.tree.sight id
  declared : q.lexicon.declared = p.lexicon.declared
  find? : ∀ owner name, q.scopes.find? owner name = p.scopes.find? owner name

namespace Reworded

theorem refl (p : Program) : p.Reworded p fun id => id where
  root := rfl
  size := Nat.le_refl _
  attached attached := attached
  node _ _ := (Node.map_eq_self fun _ _ => rfl).symm
  moved _ moved := absurd rfl moved
  role _ := rfl
  sight _ := rfl
  declared := rfl
  find? _ _ := rfl

variable (reworded : p.Reworded q now)

include reworded

theorem attached_of_kept (attached : p.isAttached id = true) (kept : now id = id) :
    q.isAttached id = true := by
  have after := reworded.attached attached
  rwa [kept] at after

theorem identifier?_kept (attached : p.isAttached id = true) (kept : now id = id) :
    (q.node id).identifier? = (p.node id).identifier? := by
  rw [reworded.node attached kept, ← Node.identifier?_tag, Node.tag_map, Node.identifier?_tag]

theorem role_kept (attached : p.isAttached id = true) (kept : now id = id) :
    q.tree.role id = p.tree.role id := by
  have role := reworded.role attached
  rwa [kept] at role

theorem sight_kept (attached : p.isAttached id = true) (kept : now id = id) :
    q.tree.sight id = p.tree.sight id := by
  have sight := reworded.sight attached
  rwa [kept] at sight

theorem kept_of_binds (rooted : p.Rooted) (attached : p.isAttached id = true)
    (binds : p.tree.Binds id) :
    now id = id := by
  by_contra moved
  exact rooted.linked.not_binds_of_isUse (reworded.moved attached moved).2.1 binds

theorem trans (rooted : p.Rooted) (further : q.Reworded r next) :
    p.Reworded r fun id => next (now id) where
  root := further.root.trans reworded.root
  size := Nat.le_trans reworded.size further.size
  attached attached := further.attached (reworded.attached attached)
  node {id} attached kept := by
    have allocated := rooted.allocated_of_isAttached attached
    have first : now id = id := by
      by_contra moved
      have isNew := (reworded.moved attached moved).2.2
      by_cases movedLast : next (now id) = now id
      · exact moved (movedLast.symm.trans kept)
      · rw [kept] at movedLast
        have isLater := (further.moved (reworded.attached attached) (by rwa [kept])).2.2
        rw [kept] at isLater
        exact isLater (Nat.lt_of_lt_of_le allocated reworded.size)
    rw [first] at kept
    rw [further.node (reworded.attached_of_kept attached first) kept,
      reworded.node attached first, Node.map_map]
  moved {id} attached moved := by
    by_cases first : now id = id
    · rw [first] at moved ⊢
      have attachedAfter := reworded.attached_of_kept attached first
      obtain ⟨isIdentifier, isUse, isNew⟩ := further.moved attachedAfter moved
      refine ⟨?_, ?_, fun isOld => isNew (Nat.lt_of_lt_of_le isOld reworded.size)⟩
      · rwa [Node.isIdentifier, reworded.identifier?_kept attached first] at isIdentifier
      · rwa [reworded.role_kept attached first] at isUse
    · obtain ⟨isIdentifier, isUse, isNew⟩ := reworded.moved attached first
      refine ⟨isIdentifier, isUse, ?_⟩
      by_cases last : next (now id) = now id
      · rwa [last]
      · have isLater := (further.moved (reworded.attached attached) last).2.2
        exact fun isOld => isLater (Nat.lt_of_lt_of_le isOld reworded.size)
  role attached := (further.role (reworded.attached attached)).trans (reworded.role attached)
  sight attached := (further.sight (reworded.attached attached)).trans (reworded.sight attached)
  declared := further.declared.trans reworded.declared
  find? owner name := (further.find? owner name).trans (reworded.find? owner name)

theorem binder?_eq (owner : NodeId) (name : String) :
    q.lexicon.binder? owner name = p.lexicon.binder? owner name := by
  rw [Lexicon.binder?, reworded.declared, Lexicon.binder?]

theorem look?_eq (places : List NodeId) (name : String) :
    q.lexicon.look? places name = p.lexicon.look? places name := by
  simp only [Lexicon.look?, reworded.binder?_eq]

theorem resolve?_eq (sound : p.Sound) (afterSound : q.Sound) (attached : p.isAttached id = true)
    (name : String) :
    q.resolve? (now id) name = p.resolve? id name := by
  have attachedAfter := reworded.attached attached
  have sight := reworded.sight attached
  rw [isAttached_eq sound.rooted.linked sound.rooted.isTop.top] at attached
  rw [isAttached_eq afterSound.rooted.linked afterSound.rooted.isTop.top] at attachedAfter
  rw [afterSound.resolve?_eq attachedAfter, sound.resolve?_eq attached, reworded.look?_eq, sight]
  simp only [reworded.find?]

variable (rooted : p.Rooted) (afterRooted : q.Rooted)

include rooted afterRooted

theorem uses_kept (attached : p.isAttached id = true) (kept : now id = id) :
    q.lexicon.uses id = p.lexicon.uses id := by
  have attachedAfter := reworded.attached_of_kept attached kept
  have identifier := reworded.identifier?_kept attached kept
  have role := reworded.role_kept attached kept
  have sight := reworded.sight_kept attached kept
  rw [isAttached_eq rooted.linked rooted.isTop.top] at attached
  rw [isAttached_eq afterRooted.linked afterRooted.isTop.top] at attachedAfter
  rw [Program.node, Program.node] at identifier
  simp only [lexicon, Tree.lexicon, attached, attachedAfter, Tree.useAt?, identifier, role, sight]

theorem meaning?_kept (attached : p.isAttached id = true) (kept : now id = id) :
    q.lexicon.meaning? id = p.lexicon.meaning? id := by
  have declares : q.lexicon.declarationOf? id = p.lexicon.declarationOf? id := by
    rw [Lexicon.declarationOf?, reworded.declared, Lexicon.declarationOf?]
  simp only [Lexicon.meaning?, reworded.uses_kept rooted afterRooted attached kept, declares,
    reworded.look?_eq, reworded.binder?_eq]

theorem writes_kept {d : Declaration} (attached : p.isAttached id = true) (kept : now id = id)
    (writes : p.lexicon.Writes d id) : q.lexicon.Writes d id := by
  refine writes.imp ?_ ?_
  · rintro ⟨use, isUse, writes, means⟩
    exact ⟨use, (reworded.uses_kept rooted afterRooted attached kept).trans isUse, writes,
      (reworded.look?_eq _ _).trans means⟩
  · rintro ⟨e, declared, isName, different, bound⟩
    exact ⟨e, reworded.declared ▸ declared, isName, different,
      (reworded.binder?_eq _ _).trans bound⟩

omit rooted in
theorem meaning?_moved (attached : p.isAttached id = true) (moved : now id ≠ id)
    (spelled : (q.node (now id)).identifier? = some name) :
    q.lexicon.meaning? (now id) = p.lexicon.look? (p.tree.sight id) name := by
  have attachedAfter := reworded.attached attached
  have role := reworded.role attached
  have sight := reworded.sight attached
  have isUse := (reworded.moved attached moved).2.1
  rw [isAttached_eq afterRooted.linked afterRooted.isTop.top] at attachedAfter
  rw [Program.node] at spelled
  rw [Lexicon.meaning?]
  simp only [lexicon, Tree.lexicon, attachedAfter, if_true, Tree.useAt?, spelled, Option.bind_some,
    role, sight, isUse]
  exact reworded.look?_eq _ name

end Reworded

/-! ### One use is put in other words -/

namespace Steady

variable (steady : p.Steady)

include steady

theorem removeReferences_of_use (isIdentifier : (p.node site).isIdentifier = true)
    (isUse : (p.tree.role site).isUse = true) :
    p.removeReferences site = { p with scopes := p.scopes.detach site } := by
  have linked := steady.linked
  cases belongs : p.bindingOf? site with
  | none =>
    have absent : p.scopes.detach site = p.scopes := by
      have absent : p.scopes.occurrences[site]? = none := belongs
      rw [Scopes.detach, absent]
    have notOpening : (p.tree.scopeKind? site).isSome = false :=
      Tree.opens_of_isIdentifier isIdentifier
    have forgotten : p.forgetNode site = (p, none) := by
      rw [forgetNode]
      simp only [notOpening, Bool.false_eq_true, if_false, isIdentifier, if_true, belongs]
    rw [removeReferences, linked.descendants_eq (Tree.allocated_of_isIdentifier isIdentifier),
      Tree.children_of_isIdentifier isIdentifier, List.flatMap_nil, List.foldl_cons,
      List.foldl_nil, absent]
    simp only [forgotten]
    rfl
  | some b =>
    refine removeReferences_of_identifier linked isIdentifier (b := b)
      (Option.filter_eq_some_iff.mpr ⟨belongs, ?_⟩)
    rw [decide_eq_true_eq]
    rintro rfl
    exact linked.not_binds_of_isUse isUse
      (steady.declares_of_live (steady.sound.live_of_bindingOf? belongs)).2

end Steady

theorem find?_of_fixReferences_leaf (linked : p.tree.Linked) (allocated : p.tree.Allocated piece)
    (leaf : (p.node piece).children = []) (silent : (p.node piece).isSilent = true)
    (fresh : p.stale = false) (attaches : p.fixReferences piece = .ok q) (owner : NodeId)
    (name : String) :
    q.scopes.find? owner name = p.scopes.find? owner name := by
  have below : p.tree.descendants piece = [piece] := by
    rw [linked.descendants_eq allocated, show (p.tree.node piece).children = [] from leaf,
      List.flatMap_nil]
  have notIntroducing : p.introducesNames piece = false := by
    have closed : (p.tree.scopeKind? piece).isSome = false := Tree.opens_of_isSilent silent
    rw [introducesNames]
    cases shape : p.node piece <;> simp_all [Node.isSilent]
  rw [fixReferences, isAttached_of_fixReferences attaches] at attaches
  simp only [Bool.not_true, Bool.false_eq_true, if_false, fresh, below, List.any_cons,
    notIntroducing, List.any_nil, Bool.or_self, List.foldl_cons, List.foldl_nil,
    Except.ok.injEq] at attaches
  subst attaches
  dsimp only
  split
  · rfl
  · exact Scopes.find?_attachUse ..

/--
In a store that has grown by a node that holds nothing, that node has taken the place of a use. -/
structure Rewording (p : Program) (site piece : NodeId) (grown : Tree)
    (after : Program) : Prop where
  steady : p.Steady
  afterSteady : after.Steady
  leads : p.Leads after
  building : p.tree.Building [piece] grown
  leaf : (grown.node piece).children = []
  silent : (grown.node piece).isSilent = true
  attached : p.tree.isWithin site p.root = true
  isIdentifier : (p.node site).isIdentifier = true
  isUse : (p.tree.role site).isUse = true
  root : after.root = p.root
  tree : after.tree = grown.replace site piece
  edited : grown.Edited after.tree site (some piece)
  possible : grown.Exchangeable site (some piece)
  find? : ∀ owner name, after.scopes.find? owner name = p.scopes.find? owner name

namespace Rewording

variable {after : Program} (rewording : p.Rewording site piece grown after)

include rewording

theorem grows : p.tree.Grows grown := rewording.building.grows

theorem loose :
    p.tree.Loose grown piece := rewording.building.loose piece (List.mem_singleton_self _)

theorem unchanged : p.tree.Unchanged grown p.root :=
  rewording.grows.unchanged rewording.steady.linked rewording.steady.isTop

theorem alike : p.tree.Alike grown fun id => p.tree.isWithin id p.root = true :=
  rewording.unchanged.alike rewording.steady.linked rewording.steady.isTop.top

theorem isTop : grown.IsTop p.root := by
  have top := rewording.grows.isTop rewording.steady.isTop.allocated rewording.steady.isTop.top
  exact ⟨top.1, top.2⟩

theorem allocatedSite :
    p.tree.Allocated site := Tree.allocated_of_isIdentifier rewording.isIdentifier

theorem freeGrown : ¬grown.Binds site := by
  rw [rewording.grows.binds_iff rewording.steady.linked rewording.allocatedSite]
  exact rewording.steady.linked.not_binds_of_isUse rewording.isUse

theorem isIdentifierGrown : (grown.node site).isIdentifier = true := by
  rw [rewording.grows.node rewording.allocatedSite]
  exact rewording.isIdentifier

theorem attached_grown (attached : p.tree.isWithin id p.root = true) :
    grown.isWithin id p.root = true := by
  rw [rewording.alike.isWithin rewording.steady.linked rewording.grows.linked attached, attached]

theorem notNew : some piece ≠ some p.root := by
  rintro ⟨⟩
  exact rewording.loose.new rewording.steady.isTop.allocated

theorem stays (attached : p.tree.isWithin id p.root = true) (different : id ≠ site) :
    grown.Stays site (some piece) id where
  outside := by
    rw [Bool.eq_false_iff]
    exact fun below =>
      different (rewording.grows.linked.eq_of_isWithin_identifier rewording.isIdentifierGrown below)
  present := by
    rw [Tree.isIncoming_some, Bool.eq_false_iff]
    intro below
    rw [rewording.grows.linked.eq_of_isWithin_leaf rewording.leaf below] at attached
    exact rewording.loose.new
      (rewording.steady.linked.allocated_of_isWithin attached rewording.steady.isTop.allocated)

theorem silent_below : ∀ id, grown.isWithin id piece = true → (grown.node id).isSilent = true := by
  intro id below
  rw [rewording.grows.linked.eq_of_isWithin_leaf rewording.leaf below]
  exact rewording.silent

theorem attached_after (attached : p.tree.isWithin id p.root = true) :
    after.tree.isWithin (Node.exchange site piece id) p.root = true := by
  rw [rewording.edited.isWithin_root_iff rewording.grows.linked rewording.possible
    rewording.isTop.top (rewording.attached_grown rewording.attached) rewording.notNew]
  by_cases same : id = site
  · rw [Node.exchange, if_pos same]
    exact .inr Tree.isWithin_self
  · rw [Node.exchange_of_ne same]
    exact .inl ⟨rewording.attached_grown attached, (rewording.stays attached same).outside⟩

theorem node_grown (id : NodeId) :
    after.node id = (grown.node id).map (Node.exchange site piece) := by
  obtain ⟨parent, held⟩ := rewording.possible.held
  rw [Program.node, rewording.tree, Tree.node_replace rewording.grows.linked held]

theorem node_piece : after.node piece = grown.node piece := by
  rw [rewording.node_grown, Node.map_eq_self]
  rw [rewording.leaf]
  exact nofun

theorem role_after (attached : p.tree.isWithin id p.root = true) :
    after.tree.role (Node.exchange site piece id) = p.tree.role id := by
  have linked := rewording.grows.linked
  have edited := rewording.edited
  rw [← rewording.alike.role rewording.steady.linked linked attached]
  by_cases same : id = site
  · rw [Node.exchange, if_pos same, edited.role_new linked rewording.possible, same]
  · rw [Node.exchange_of_ne same, (edited.alike linked rewording.possible).role linked
      rewording.afterSteady.linked (rewording.stays attached same)]

theorem sight_after (attached : p.tree.isWithin id p.root = true) :
    after.tree.sight (Node.exchange site piece id) = p.tree.sight id := by
  have linked := rewording.grows.linked
  have edited := rewording.edited
  rw [← rewording.alike.sight rewording.steady.linked linked attached]
  by_cases same : id = site
  · rw [Node.exchange, if_pos same, edited.sight_of_incoming linked rewording.possible
      rewording.freeGrown rewording.silent_below
        (Tree.opens_of_isIdentifier rewording.isIdentifierGrown) Tree.isWithin_self, same]
  · rw [Node.exchange_of_ne same, (edited.alike linked rewording.possible).sight linked
      rewording.afterSteady.linked (rewording.stays attached same)]

theorem declared_after : after.lexicon.declared = p.lexicon.declared := by
  have linked := rewording.steady.linked
  have plain (id : NodeId) : site ∉ (grown.node id).part .declarators := by
    intro held
    have isDeclarator := rewording.building.wellBound.declarator held
    have isIdentifier := rewording.isIdentifierGrown
    cases shape : grown.node site <;> simp_all [Node.isIdentifier, Node.identifier?,
      Node.isDeclarator]
  rw [lexicon, rewording.root, rewording.edited.declared_eq rewording.grows.linked
    rewording.possible rewording.freeGrown rewording.silent_below rewording.isTop
    (rewording.attached_grown rewording.attached) rewording.notNew plain,
    rewording.unchanged.lexicon_eq linked rewording.grows.linked rewording.steady.isTop
      rewording.isTop.allocated, List.filter_eq_self]
  intro d declared
  rw [Bool.not_eq_true', Bool.eq_false_iff]
  intro below
  have same := rewording.grows.linked.eq_of_isWithin_identifier rewording.isIdentifierGrown below
  obtain ⟨holder, -, declares⟩ := (linked.mem_declared rewording.steady.isTop).mp declared
  exact linked.not_binds_of_isUse rewording.isUse (same ▸ linked.binds_of_mem declares)

theorem reworded : p.Reworded after (Node.exchange site piece) := by
  have attachedIff {id : NodeId} : p.isAttached id = true ↔ p.tree.isWithin id p.root = true := by
    rw [isAttached_eq rewording.steady.linked rewording.steady.isTop.top]
  refine ⟨rewording.root, ?_, fun attached => ?_, fun {id} attached _ => ?_,
    fun {id} attached moved => ?_, fun attached => rewording.role_after (attachedIff.mp attached),
    fun attached => rewording.sight_after (attachedIff.mp attached), rewording.declared_after,
    rewording.find?⟩
  · exact Nat.le_trans rewording.grows.size (Nat.le_of_eq rewording.edited.size.symm)
  · rw [isAttached_eq rewording.afterSteady.linked rewording.afterSteady.isTop.top, rewording.root]
    exact rewording.attached_after (attachedIff.mp attached)
  · rw [rewording.node_grown,
      rewording.grows.node (rewording.steady.sound.rooted.allocated_of_isAttached attached)]
    rfl
  · have same : id = site := by
      by_contra different
      exact moved (Node.exchange_of_ne different)
    subst same
    rw [Node.exchange, if_pos rfl]
    exact ⟨rewording.isIdentifier, rewording.isUse, rewording.loose.new⟩

end Rewording

theorem Steady.exists_reword (steady : p.Steady) (building : p.tree.Building [piece] grown)
    (leaf : (grown.node piece).children = []) (silent : (grown.node piece).isSilent = true)
    (attached : p.isAttached site = true) (isIdentifier : (p.node site).isIdentifier = true)
    (isUse : (p.tree.role site).isUse = true) :
    ∃ after, Program.replace { p with tree := grown } site piece = .ok (piece, after) ∧
      p.Rewording site piece grown after := by
  have linked := steady.linked
  have isTop := steady.isTop
  have grows := building.grows
  have loose := building.loose piece (List.mem_singleton_self _)
  rw [isAttached_eq linked isTop.top] at attached
  have allocated := linked.allocated_of_isWithin attached isTop.allocated
  have notRoot : site ≠ p.root := steady.ne_root fun body isProgram => by
    rw [isProgram] at isIdentifier
    cases isIdentifier
  have isIdentifierGrown : (Program.node { p with tree := grown } site).isIdentifier = true := by
    rw [Program.node, grows.node allocated]
    exact isIdentifier
  have isUseGrown : (grown.role site).isUse = true := by
    rwa [((grows.unchanged linked isTop).alike linked isTop.top).role linked grows.linked attached]
  have notStatement : (Program.node { p with tree := grown } site).isStatement = false := by
    cases shape : Program.node { p with tree := grown } site <;>
      simp_all [Node.isIdentifier, Node.identifier?, Node.isStatement]
  have plain : (Program.node { p with tree := grown } site).isDeclarator = false := by
    cases found : Program.node { p with tree := grown } site <;>
      simp_all [Node.isIdentifier, Node.identifier?, Node.isDeclarator]
  obtain ⟨grownSteady, growing⟩ := steady.grow building
  have replaceable := steady.replaceable building attached notRoot
  obtain ⟨after, done, result⟩ := Keeps.replace grownSteady.sound loose.allocated replaceable
  rw [unwrap_of_not_statement notStatement] at done result
  obtain ⟨afterSteady, leads⟩ :=
    grownSteady.replace loose.allocated (grows.linked.not_binds_of_isUse isUseGrown) plain done
  have isStaged : Program.staged { p with tree := grown } site piece =
      { p with tree := grown.replace site piece, scopes := p.scopes.detach site } := by
    rw [staged, unwrap_of_not_statement notStatement]
    dsimp only
    rw [exchanged, grownSteady.removeReferences_of_use isIdentifierGrown isUseGrown]
  have tree : after.tree = grown.replace site piece := by rw [result.tree, isStaged]
  refine ⟨after, done, ⟨steady, afterSteady, growing.trans leads, building, leaf, silent, attached,
    isIdentifier, isUse, result.root, tree, result.edited, result.possible, fun owner name => ?_⟩⟩
  have attaches := (replace_eq_ok_iff.mp done).2.2
  rw [isStaged, ← tree] at attaches
  obtain ⟨parent, held⟩ := result.possible.held
  have shape : after.tree.node piece = grown.node piece := by
    rw [tree, Tree.node_replace grows.linked held, Node.map_eq_self]
    simp [leaf]
  have fresh : p.stale = false := Keeps.fresh steady.sound
  have comesIn := find?_of_fixReferences_leaf afterSteady.linked
    (result.edited.allocated.mpr loose.allocated)
    (p := { p with tree := after.tree, scopes := p.scopes.detach site }) (q := after)
  rw [Program.node, shape] at comesIn
  rw [comesIn leaf silent fresh attaches]
  exact Scopes.find?_detach ..

/-! ### Uses that come to be spelled alike -/

variable {leaf : Node NodeId} {uses rest : NodeId → Prop} {c : Context}

/-- Certain uses have given way to nodes of one spelling. -/
structure Recast (p q : Program) (uses : NodeId → Prop) (leaf : Node NodeId)
    (now : NodeId → NodeId) : Prop extends p.Reworded q now where
  moved_iff : ∀ {id}, p.isAttached id = true → (now id ≠ id ↔ uses id)
  spelled : ∀ {id}, p.isAttached id = true → uses id → q.node (now id) = leaf

namespace Recast

theorem none (p : Program) (empty : ∀ id, ¬uses id) : p.Recast p uses leaf fun id => id where
  toReworded := .refl p
  moved_iff {id} _ := iff_of_false (fun moved => moved rfl) (empty id)
  spelled {id} _ isUse := absurd isUse (empty id)

theorem congr {uses' : NodeId → Prop} (recast : p.Recast q uses leaf now)
    (same : ∀ {id}, p.isAttached id = true → (uses' id ↔ uses id)) : p.Recast q uses' leaf now where
  toReworded := recast.toReworded
  moved_iff attached := (recast.moved_iff attached).trans (same attached).symm
  spelled attached isUse := recast.spelled attached ((same attached).mp isUse)

theorem step {after : Program} (rewording : p.Rewording site piece grown after)
    (isLeaf : grown.node piece = leaf) (further : after.Recast q rest leaf next)
    (others : ∀ id, rest id → p.isAttached id = true ∧ id ≠ site) :
    p.Recast q (fun id => id = site ∨ rest id) leaf
      fun id => next (Node.exchange site piece id) := by
  have rooted := rewording.steady.sound.rooted
  have first := rewording.reworded
  have reworded := first.trans rooted further.toReworded
  have siteAttached : p.isAttached site = true := by
    rw [isAttached_eq rooted.linked rooted.isTop.top]
    exact rewording.attached
  have isPiece : Node.exchange site piece site = piece := if_pos rfl
  have pieceAttached : after.isAttached piece = true := isPiece ▸ first.attached siteAttached
  have pieceNew : ¬p.tree.Allocated piece := rewording.loose.new
  have stays : next piece = piece := by
    by_contra moved
    exact pieceNew
      (rooted.allocated_of_isAttached (others _ ((further.moved_iff pieceAttached).mp moved)).1)
  refine ⟨reworded, fun {id} attached => ?_, fun {id} attached isUse => ?_⟩
  · by_cases same : id = site
    · rw [same, isPiece, stays]
      refine iff_of_true ?_ (.inl rfl)
      rintro rfl
      exact pieceNew rewording.allocatedSite
    · rw [Node.exchange_of_ne same, or_iff_right same]
      exact further.moved_iff (first.attached_of_kept attached (Node.exchange_of_ne same))
  · rcases isUse with rfl | isRest
    · rw [isPiece, stays, further.node pieceAttached stays, rewording.node_piece, isLeaf,
        Node.map_eq_self]
      rw [← isLeaf, rewording.leaf]
      exact nofun
    · have different := (others id isRest).2
      rw [Node.exchange_of_ne different]
      exact further.spelled (first.attached_of_kept attached (Node.exchange_of_ne different)) isRest

end Recast

theorem Steady.exists_put (steady : p.Steady) (childless : leaf.children = [])
    (silent : leaf.isSilent = true) (attached : p.isAttached site = true)
    (isIdentifier : (p.node site).isIdentifier = true) (isUse : (p.tree.role site).isUse = true)
    (c : Context) :
    ∃ piece grown after, p.Rewording site piece grown after ∧ grown.node piece = leaf ∧
      (do discard (SimplifyM.replace site (← SimplifyM.build (Tree.alloc leaf)))) ⟨p, c⟩ =
        .ok () ⟨after, c⟩ := by
  have holdsNothing (part : Part) : leaf.part part = [] := by
    rw [List.eq_nil_iff_forall_not_mem]
    intro child held
    have member := Node.mem_children_of_mem_part held
    rw [childless] at member
    cases member
  have makes := Tree.makes_alloc leaf fun part _ => holdsNothing part
  rw [childless] at makes
  have building := makes p.tree [] p.tree (.start steady.linked steady.wellBound steady.nonempty)
  have isLeaf : (Tree.alloc leaf p.tree).2.node (Tree.alloc leaf p.tree).1 = leaf := by
    rw [Tree.node_alloc]
    exact if_pos rfl
  obtain ⟨after, done, rewording⟩ := steady.exists_reword building (by rw [isLeaf, childless])
    (by rw [isLeaf, silent]) attached isIdentifier isUse
  have replaced (c : Context) :
      SimplifyM.replace site (Tree.alloc leaf p.tree).1
        ⟨{ p with tree := (Tree.alloc leaf p.tree).2 }, c⟩ =
          .ok (Tree.alloc leaf p.tree).1 ⟨after, c⟩ := by
    rw [SimplifyM.replace, SimplifyM.edit, done]
  exact ⟨_, _, after, rewording, isLeaf, SimplifyM.discard_of_ok (replaced c)⟩

end Program

end Unravel
