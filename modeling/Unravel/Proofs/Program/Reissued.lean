import Unravel.Proofs.Program.Meaning
import Unravel.Proofs.Simplify.Surely
import Unravel.Proofs.Tree.Reissued
import Unravel.Simplify.Shape

/-!
Programs in which identifiers that are read have been given anew (`Program.Reissued`). The table
keeps its scopes and bindings but for what reads these, so that every name means at every place what
it meant before, and a binding is declared and constant as it was. Putting a new identifier into the
place of one that is read is such a change (`Program.Steady.exists_reissue`).
-/

namespace Unravel

namespace Scopes

variable {s s' : Scopes}

structure Rereads (s s' : Scopes) : Prop where
  scopes : s'.scopes = s.scopes
  owned : s'.owned = s.owned
  size : s'.bindings.size = s.bindings.size
  binding : ∀ b, ∃ references, s'.binding b = { s.binding b with references }

namespace Rereads

theorem refl (s : Scopes) : s.Rereads s := ⟨rfl, rfl, rfl, fun b => ⟨(s.binding b).references, rfl⟩⟩

variable (rereads : s.Rereads s')

include rereads

theorem trans {last : Scopes} (further : s'.Rereads last) : s.Rereads last where
  scopes := further.scopes.trans rereads.scopes
  owned := further.owned.trans rereads.owned
  size := further.size.trans rereads.size
  binding b := by
    obtain ⟨references, same⟩ := rereads.binding b
    obtain ⟨others, last⟩ := further.binding b
    exact ⟨others, by rw [last, same]⟩

theorem scope_eq (id : ScopeId) :
    s'.scope id = s.scope id := by rw [Scopes.scope, rereads.scopes, Scopes.scope]

theorem lookup?_eq (id : ScopeId) (name : String) : s'.lookup? id name = s.lookup? id name := by
  have chainWithin (limit : Nat) (id : ScopeId) :
      s'.chainWithin limit id = s.chainWithin limit id := by
    induction limit generalizing id with
    | zero => rfl
    | succ limit induction => simp only [Scopes.chainWithin, rereads.scope_eq, induction]
  simp only [lookup?, chain, rereads.scopes, chainWithin, rereads.scope_eq]

/-- So does what a name means at a place of a tree. -/
theorem resolve?_eq (t : Tree) (id : NodeId) (name : String) :
    s'.resolve? t id name = s.resolve? t id name := by
  have among (inner : Option NodeId) (nodes : List NodeId) :
      s'.scopeAmong? t inner nodes = s.scopeAmong? t inner nodes := by
    induction nodes generalizing inner with
    | nil => rfl
    | cons head rest induction => simp only [scopeAmong?, rereads.owned, induction]
  simp only [resolve?, scopeAt?, among, rereads.lookup?_eq]

theorem liveIds_eq : s'.liveIds = s.liveIds := by
  have retired (b : BindingId) : (s'.binding b).retired = (s.binding b).retired := by
    obtain ⟨references, same⟩ := rereads.binding b
    rw [same]
  simp only [Scopes.liveIds, rereads.size, retired]

end Rereads

theorem rereads_detach {id : NodeId} {b : BindingId} (occurs : s.occurrences[id]? = some b)
    (inside : b.index < s.bindings.size) (unwritten : id ∉ (s.binding b).mutations) :
    s.Rereads (s.detach id) := by
  rw [detach, occurs]
  refine ⟨rfl, rfl, size_modifyBinding .., fun other => ?_⟩
  change ∃ references, (s.modifyBinding b _).binding other = _
  rw [binding_modifyBinding s inside]
  split
  · rename_i same
    subst same
    have kept : (s.binding other).mutations.filter (· ≠ id) = (s.binding other).mutations := by
      refine List.filter_eq_self.mpr fun use member => ?_
      rw [decide_eq_true_eq]
      rintro rfl
      exact unwritten member
    exact ⟨_, by rw [kept]⟩
  · exact ⟨_, rfl⟩

theorem bindingOf?_detach (id other : NodeId) :
    (s.detach id).bindingOf? other = if other = id then none else s.bindingOf? other := by
  rw [detach]
  split
  · rename_i absent
    by_cases same : other = id
    · rw [if_pos same, same, bindingOf?, absent]
    · rw [if_neg same]
  · rw [bindingOf?, Std.HashMap.getElem?_erase]
    simp only [beq_iff_eq, @eq_comm _ id, bindingOf?]
    rfl

theorem rereads_attach {id : NodeId} {b : BindingId} {role : Role}
    (inside : b.index < s.bindings.size) (reads : role.writes = false) :
    s.Rereads (s.attach id b role) := by
  refine ⟨rfl, rfl, size_modifyBinding .., fun other => ?_⟩
  change ∃ references, (s.modifyBinding b _).binding other = _
  rw [binding_modifyBinding s inside]
  split
  · rename_i same
    subst same
    exact ⟨_, by rw [reads]; rfl⟩
  · exact ⟨_, rfl⟩

theorem isConditional_map (f : NodeId → NodeId) (n : Node NodeId) :
    isConditional (n.map f) = isConditional n := by
  cases n <;> rfl

end Scopes

namespace Program

variable {p q r : Program} {now next : NodeId → NodeId} {id : NodeId} {name : String}
  {b : BindingId} {d : Declaration}

/-! ### Bindings and their declarations -/

theorem Sound.exists_stands_of_live (sound : p.Sound) (live : b ∈ p.scopes.liveIds) :
    ∃ d ∈ p.lexicon.declared, p.scopes.Stands b d := by
  simp only [Scopes.liveIds, List.mem_filter, List.mem_map, List.mem_range,
    Bool.not_eq_true'] at live
  obtain ⟨⟨index, inside, rfl⟩, stays⟩ := live
  obtain ⟨owner, name, found⟩ := sound.describes.live ⟨index⟩ inside stays
  obtain ⟨d, bound, stands⟩ := sound.describes.stands found
  exact ⟨d, (Lexicon.binder?_some bound).1, stands⟩

theorem Sound.live_of_bindingOf? (sound : p.Sound) (belongs : p.bindingOf? id = some b) :
    b ∈ p.scopes.liveIds := by
  obtain ⟨d, -, stands⟩ := sound.exists_of_bindingOf? belongs
  simp only [Scopes.liveIds, List.mem_filter, List.mem_map, List.mem_range, Bool.not_eq_true']
  exact ⟨⟨b.index, stands.index, rfl⟩, stands.live⟩

theorem Steady.declares_of_live (steady : p.Steady) (live : b ∈ p.scopes.liveIds) :
    p.tree.isWithin (p.binding b).identifier p.root = true ∧
    p.tree.Binds (p.binding b).identifier := by
  obtain ⟨d, member, stands⟩ := steady.sound.exists_stands_of_live live
  have same : (p.binding b).identifier = d.identifier := stands.identifier
  obtain ⟨holder, -, declares⟩ := (steady.linked.mem_declared steady.isTop).mp member
  rw [same]
  exact ⟨(steady.linked.scopes_owner steady.isTop member).1, steady.linked.binds_of_mem declares⟩

theorem Steady.attached_of_declaratorOf? (steady : p.Steady) (live : b ∈ p.scopes.liveIds)
    {declarator : NodeId} {init : Option NodeId}
    (declared : p.declaratorOf? b = some (declarator, init)) :
    p.tree.isWithin declarator p.root = true := by
  obtain ⟨-, shape⟩ := declaratorOf?_eq_some_iff.mp declared
  have held : p.tree.parent? (p.binding b).identifier = some declarator := by
    rw [← steady.linked.mem_children, ← node, shape]
    simp [Node.children]
  exact steady.linked.isWithin_root_of_above steady.isTop (steady.declares_of_live live).1
    (steady.linked.isWithin_of_parent held)

/-! ### Programs with identifiers given anew -/

theorem Steady.resolve?_reissued (steady : p.Steady) (after : q.Steady) (root : q.root = p.root)
    (tree : p.tree.Reissued q.tree p.root now) (table : p.scopes.Rereads q.scopes)
    (attached : p.tree.isWithin id p.root = true) (name : String) :
    q.resolve? (now id) name = p.resolve? id name := by
  have describes := after.sound.describes
  rw [root] at describes
  rw [resolve?, resolve?, Scopes.resolve?, Scopes.resolve?,
    describes.scopeAt?_eq after.linked (root ▸ after.isTop) rfl (tree.attached attached),
    steady.sound.describes.scopeAt?_eq steady.linked steady.isTop rfl attached,
    tree.scopeNode?_now steady.linked steady.isTop after.linked attached, table.owned]
  simp only [table.lookup?_eq]

/-- Identifiers of a program that are read have been given anew. Each belongs now to what its name
means at its place. -/
structure Reissued (p q : Program) (now : NodeId → NodeId) : Prop where
  root : q.root = p.root
  tree : p.tree.Reissued q.tree p.root now
  table : p.scopes.Rereads q.scopes
  kept : ∀ {id}, p.tree.isWithin id p.root = true → now id = id → q.bindingOf? id = p.bindingOf? id
  given : ∀ {id name}, p.tree.isWithin id p.root = true → now id ≠ id →
    (q.node (now id)).identifier? = some name → q.bindingOf? (now id) = p.resolve? id name

theorem Reissued.refl (p : Program) : p.Reissued p fun id => id :=
  ⟨rfl, .refl .., .refl _, fun _ _ => rfl, fun _ moved => absurd rfl moved⟩

namespace Reissued

variable (reissued : p.Reissued q now)

include reissued

theorem binding (b : BindingId) : ∃ references, q.binding b = { p.binding b with references } :=
  reissued.table.binding b

theorem identifier_eq (b : BindingId) : (q.binding b).identifier = (p.binding b).identifier := by
  obtain ⟨references, same⟩ := reissued.binding b
  rw [same]

theorem name_eq (b : BindingId) : (q.binding b).name = (p.binding b).name := by
  obtain ⟨references, same⟩ := reissued.binding b
  rw [same]

theorem declaration_eq (b : BindingId) : (q.binding b).declaration = (p.binding b).declaration := by
  obtain ⟨references, same⟩ := reissued.binding b
  rw [same]

theorem isConstant_eq (b : BindingId) : (q.binding b).isConstant = (p.binding b).isConstant := by
  obtain ⟨references, same⟩ := reissued.binding b
  rw [same, Binding.isConstant, Binding.isConstant]

theorem isTop_after (after : q.Steady) : q.tree.IsTop p.root := reissued.root ▸ after.isTop

theorem attached_now (attached : p.tree.isWithin id p.root = true) :
    q.tree.isWithin (now id) q.root = true :=
  reissued.root ▸ reissued.tree.attached attached

theorem usedBinding?_kept (attached : p.tree.isWithin id p.root = true) (kept : now id = id) :
    q.usedBinding? id = p.usedBinding? id := by
  rw [usedBinding?, usedBinding?, reissued.kept attached kept]
  simp only [reissued.identifier_eq]

variable (steady : p.Steady) (after : q.Steady)

include steady

theorem now_of_binds (attached : p.tree.isWithin id p.root = true) (binds : p.tree.Binds id) :
    now id = id := by
  by_contra moved
  exact steady.linked.not_binds_of_isRead (reissued.tree.isRead attached moved) binds

theorem identifier?_kept (attached : p.tree.isWithin id p.root = true) (kept : now id = id) :
    (q.node id).identifier? = (p.node id).identifier? :=
  (reissued.tree.alike steady.linked steady.isTop).identifier? ⟨attached, kept⟩

include after

theorem resolve?_now (attached : p.tree.isWithin id p.root = true) (name : String) :
    q.resolve? (now id) name = p.resolve? id name :=
  steady.resolve?_reissued after reissued.root reissued.tree reissued.table attached name

theorem trans (further : q.Reissued r next) : p.Reissued r fun id => next (now id) := by
  have tree : q.tree.Reissued r.tree p.root next := reissued.root ▸ further.tree
  refine ⟨further.root.trans reissued.root, reissued.tree.trans steady.linked steady.isTop
    after.linked tree, reissued.table.trans further.table, fun {id} attached kept => ?_,
    fun {id name} attached moved spelled => ?_⟩
  · have first := reissued.tree.now_eq_self steady.linked steady.isTop tree attached kept
    have attachedAfter := reissued.attached_now attached
    rw [first] at kept attachedAfter
    rw [further.kept attachedAfter kept, reissued.kept attached first]
  · have attachedAfter := reissued.attached_now attached
    by_cases movedLast : next (now id) = now id
    · rw [movedLast] at moved spelled ⊢
      rw [further.kept attachedAfter movedLast]
      exact reissued.given attached moved
        ((further.identifier?_kept after attachedAfter movedLast).symm.trans spelled)
    · rw [further.given attachedAfter movedLast spelled,
        reissued.resolve?_now steady after attached]

theorem declaratorOf?_now (live : b ∈ p.scopes.liveIds) : q.declaratorOf? b =
    (p.declaratorOf? b).map fun (declarator, init) => (declarator, init.map now) := by
  have linked := steady.linked
  obtain ⟨attached, binds⟩ := steady.declares_of_live live
  have kept := reissued.now_of_binds steady attached binds
  have identifier := reissued.identifier_eq b
  have declaration := reissued.declaration_eq b
  ext ⟨declarator, init⟩
  simp only [declaratorOf?_eq_some_iff, Option.map_eq_some_iff, Prod.exists, Prod.mk.injEq,
    identifier, declaration]
  -- Before and afterwards, the declarator is the parent of the declaring identifier.
  have ofMember (member : (p.binding b).identifier ∈ (p.node (p.binding b).declaration).children) :
      q.node (p.binding b).declaration = (p.node (p.binding b).declaration).map now :=
    reissued.tree.node_parent linked steady.isTop attached (linked.mem_children.mp member)
  constructor
  · rintro ⟨rfl, shape⟩
    have member : (p.binding b).identifier ∈ (p.node (p.binding b).declaration).children := by
      refine reissued.tree.mem_children_before linked after.linked attached ?_
      rw [kept, ← node, shape]
      simp [Node.children]
    rw [ofMember member, Node.map_eq_declarator_iff] at shape
    obtain ⟨target, value, shape, same, isInit⟩ := shape
    have declarationAttached :=
      Tree.Reissued.attached_parent linked steady.isTop attached (linked.mem_children.mp member)
    have isTarget : target ∈ (p.tree.node (p.binding b).declaration).children := by
      rw [← node, shape]
      simp [Node.children]
    rw [reissued.tree.eq_of_mem_children linked declarationAttached member isTarget
      (same.trans kept.symm)] at shape
    exact ⟨_, value, ⟨rfl, shape⟩, rfl, isInit⟩
  · rintro ⟨_, value, ⟨rfl, shape⟩, rfl, rfl⟩
    refine ⟨rfl, ?_⟩
    rw [ofMember (by rw [shape]; simp [Node.children]), Node.map_eq_declarator_iff]
    exact ⟨_, value, shape, kept, rfl⟩

omit after in
theorem now_declarator (live : b ∈ p.scopes.liveIds) {declarator : NodeId} {init : Option NodeId}
    (declared : p.declaratorOf? b = some (declarator, init)) : now declarator = declarator := by
  have attached := steady.attached_of_declaratorOf? live declared
  obtain ⟨rfl, shape⟩ := declaratorOf?_eq_some_iff.mp declared
  have member : (p.binding b).identifier ∈ (p.tree.node (p.binding b).declaration).children := by
    rw [← node, shape]
    simp [Node.children]
  exact reissued.tree.now_of_mem_children attached member

theorem initialized?_now (live : b ∈ p.scopes.liveIds) : q.initialized? b =
    (p.initialized? b).map fun (declarator, init) => (declarator, now init) := by
  simp only [initialized?, reissued.declaratorOf?_now steady after live]
  rcases p.declaratorOf? b with _ | ⟨declarator, _ | init⟩ <;> rfl

/-- A variable is constant and sure to be initialized if it was. -/
theorem isConstantVariable_eq (live : b ∈ p.scopes.liveIds) {declarator : NodeId}
    {init : Option NodeId} (declared : p.declaratorOf? b = some (declarator, init)) :
    q.isConstantVariable b = p.isConstantVariable b := by
  have attached := steady.attached_of_declaratorOf? live declared
  have kept := reissued.now_declarator steady live declared
  obtain ⟨rfl, -⟩ := declaratorOf?_eq_some_iff.mp declared
  have ancestors := reissued.tree.ancestors_now steady.linked steady.isTop after.linked attached
  rw [kept] at ancestors
  have conditional : ∀ above ∈ p.tree.ancestors (p.binding b).declaration,
      Scopes.isConditional (q.tree.node above) = Scopes.isConditional (p.tree.node above) := by
    intro above member
    rw [reissued.tree.node (steady.linked.isWithin_root_of_above steady.isTop attached
        (Tree.isWithin_iff.mpr (.inr member)))
      (reissued.tree.now_of_mem_ancestors steady.linked steady.isTop attached member),
      Scopes.isConditional_map]
  have between (owner : NodeId) :
      ((p.tree.ancestors (p.binding b).declaration).takeWhile (· ≠ owner)).any
        (fun above => Scopes.isConditional (q.tree.node above)) =
        ((p.tree.ancestors (p.binding b).declaration).takeWhile (· ≠ owner)).any
          fun above => Scopes.isConditional (p.tree.node above) := by
    rw [Bool.eq_iff_iff, List.any_eq_true, List.any_eq_true]
    refine exists_congr fun above => and_congr_right fun member => ?_
    rw [conditional above (List.takeWhile_subset _ member)]
  obtain ⟨references, same⟩ := reissued.binding b
  have isBinding : q.scopes.binding b = { p.binding b with references } := same
  have isBefore : p.scopes.binding b = p.binding b := rfl
  simp only [isConstantVariable, same, Scopes.isUnconditional, isBinding, isBefore,
    reissued.table.scope_eq, Binding.isConstant, ancestors, between]

end Reissued

/-! ### One identifier is given anew -/

section Reissue

variable {site piece placed : NodeId} {grown : Tree}

theorem Steady.notMem_mutations_of_isRead (steady : p.Steady) (isRead : p.tree.IsRead site)
    (belongs : p.bindingOf? site = some b) : site ∉ (p.binding b).mutations := by
  obtain ⟨d, means, stands⟩ := steady.sound.exists_of_bindingOf? belongs
  have found : p.scopes.find? d.owner d.name = some b := by
    rw [steady.sound.bindingOf?_eq, means, Option.bind_some] at belongs
    exact belongs
  rw [show p.binding b = p.scopes.binding b from rfl,
    (steady.sound.describes.mutations d b (Lexicon.meaning?_some means) found).2]
  rintro (⟨use, isUse, writes, -⟩ | ⟨other, declared, same, -⟩)
  · simp only [Tree.lexicon, Tree.useAt?, Option.ite_none_right_eq_some, Option.bind_eq_some_iff,
      Option.some.injEq] at isUse
    obtain ⟨-, _, -, -, rfl⟩ := isUse
    rw [steady.linked.role_of_isRead isRead] at writes
    cases writes
  · obtain ⟨holder, -, declares⟩ := (steady.linked.mem_declared steady.isTop).mp declared
    exact steady.linked.not_binds_of_isRead isRead (same ▸ steady.linked.binds_of_mem declares)

/-- What is not there yet belongs to nothing. -/
theorem Steady.bindingOf?_detach_of_new (steady : p.Steady) (site : NodeId)
    (isNew : ¬p.tree.Allocated piece) :
    (p.scopes.detach site).bindingOf? piece = none := by
  rw [Scopes.bindingOf?_detach, ite_eq_left_iff, ← Option.not_isSome_iff_eq_none,
    Option.isSome_iff_exists]
  rintro - ⟨other, belongs⟩
  have belongs : p.bindingOf? piece = some other := belongs
  obtain ⟨d, means, -⟩ := steady.sound.exists_of_bindingOf? belongs
  exact isNew (steady.linked.allocated_of_isWithin
    (isWithin_root_of_meaning? steady.sound.rooted means).1 steady.isTop.allocated)

theorem removeReferences_of_identifier (linked : p.tree.Linked)
    (isIdentifier : (p.node site).isIdentifier = true) (used : p.usedBinding? site = some b) :
    p.removeReferences site = { p with scopes := p.scopes.detach site } := by
  have allocated := Tree.allocated_of_isIdentifier isIdentifier
  obtain ⟨belongs, isUse⟩ := Option.filter_eq_some_iff.mp used
  have notOpening : (p.tree.scopeKind? site).isSome = false :=
    Tree.opens_of_isIdentifier isIdentifier
  have forgotten : p.forgetNode site = ({ p with scopes := p.scopes.detach site }, none) := by
    rw [forgetNode]
    simp only [notOpening, Bool.false_eq_true, if_false, isIdentifier, if_true, belongs]
    rw [if_neg (by simpa using isUse)]
  rw [removeReferences, linked.descendants_eq allocated, Tree.children_of_isIdentifier isIdentifier,
    List.flatMap_nil, List.foldl_cons, List.foldl_nil]
  simp only [forgotten]
  rfl

theorem fixReferences_of_identifier (linked : p.tree.Linked) (attached : p.isAttached piece = true)
    (fresh : p.stale = false) (isIdentifier : (p.node piece).isIdentifier = true)
    (free : p.scopes.bindingOf? piece = none) :
    p.fixReferences piece = .ok { p with scopes := p.scopes.attachUse p.tree piece } := by
  have allocated := Tree.allocated_of_isIdentifier isIdentifier
  have notIntroducing : p.introducesNames piece = false := by
    have closed : (p.tree.scopeKind? piece).isSome = false :=
      Tree.opens_of_isIdentifier isIdentifier
    rw [introducesNames]
    cases shape : p.node piece <;> simp_all [Node.isIdentifier, Node.identifier?]
  have below : p.tree.descendants piece = [piece] := by
    rw [linked.descendants_eq allocated, Tree.children_of_isIdentifier isIdentifier,
      List.flatMap_nil]
  rw [fixReferences]
  simp [attached, fresh, below, notIntroducing, free]

theorem unwrap_of_not_statement (notStatement : (p.node site).isStatement = false)
    (piece : NodeId) :
    p.unwrap site piece = (piece, p) := by
  rw [unwrap, notStatement]
  rfl

/-- A piece that unwraps nothing exchanges one node for another. -/
theorem Steady.node_replace (steady : p.Steady) (notStatement : (p.node site).isStatement = false)
    (allocated : p.tree.Allocated piece) (done : p.replace site piece = .ok (placed, q))
    (id : NodeId) :
    q.node id = (p.node id).map (Node.exchange site piece) := by
  obtain ⟨rfl, result⟩ := Keeps.of_replace steady.sound allocated done
  have possible := result.possible.held
  have tree := result.tree
  rw [unwrap_of_not_statement notStatement] at possible
  rw [staged, unwrap_of_not_statement notStatement] at tree
  obtain ⟨parent, held⟩ := possible
  rw [node, tree, tree_exchanged, Tree.node_replace steady.linked held]
  rfl

theorem Steady.reissued_of_attachUse (steady : p.Steady) (after : q.Steady) (root : q.root = p.root)
    (reissued : p.tree.Reissued q.tree p.root (Node.exchange site piece))
    (isNew : ¬p.tree.Allocated piece) (attached : p.tree.isWithin site p.root = true)
    (isRead : p.tree.IsRead site) (used : p.usedBinding? site = some b)
    (shape : q.node piece = .identifier name)
    (scopes : q.scopes = (p.scopes.detach site).attachUse q.tree piece) :
    p.Reissued q (Node.exchange site piece) := by
  obtain ⟨belongs, -⟩ := Option.filter_eq_some_iff.mp used
  have isPiece : Node.exchange site piece site = piece := if_pos rfl
  have allocated {id : NodeId} (inside : p.tree.isWithin id p.root = true) : p.tree.Allocated id :=
    steady.linked.allocated_of_isWithin inside steady.isTop.allocated
  have unbound := steady.bindingOf?_detach_of_new site isNew
  have inside := (steady.sound.describes.live_of_occurrence belongs).1
  have detached :=
    Scopes.rereads_detach belongs inside (steady.notMem_mutations_of_isRead isRead belongs)
  have isReadNow : q.tree.IsRead piece := by
    rw [← isPiece]
    exact (reissued.isRead_now steady.linked steady.isTop after.linked attached).mpr isRead
  have role := after.linked.role_of_isRead isReadNow
  have attaches : (p.scopes.detach site).attachUse q.tree piece =
      ((p.scopes.detach site).resolve? q.tree piece name).elim (p.scopes.detach site)
        fun binding => (p.scopes.detach site).attach piece binding .reference := by
    rw [Scopes.attachUse, show (q.tree.node piece) = .identifier name from shape]
    simp only [Node.identifier?, role]
    cases (p.scopes.detach site).resolve? q.tree piece name <;> rfl
  have table : p.scopes.Rereads q.scopes ∧
      q.bindingOf? piece = (p.scopes.detach site).resolve? q.tree piece name := by
    rw [bindingOf?, scopes, attaches]
    cases found : (p.scopes.detach site).resolve? q.tree piece name with
    | none => exact ⟨detached, unbound⟩
    | some binding =>
      rw [attaches, found] at scopes
      have isBound : q.scopes.bindingOf? piece = some binding := by
        rw [scopes]
        simp [Scopes.attach, Scopes.bindingOf?]
      refine ⟨detached.trans (Scopes.rereads_attach ?_ rfl), by rw [← scopes, isBound]⟩
      have index := (after.sound.describes.live_of_occurrence isBound).1
      rw [scopes] at index
      exact (Scopes.size_modifyBinding ..) ▸ index
  refine ⟨root, reissued, table.1, fun {id} inside kept => ?_,
    fun {id name'} inside moved spelled => ?_⟩
  · have notSite : id ≠ site := by
      rintro rfl
      rw [isPiece] at kept
      exact isNew (kept ▸ allocated inside)
    have notPiece : id ≠ piece := fun isPiece => isNew (isPiece ▸ allocated inside)
    rw [bindingOf?, scopes, bindingOf?_attachUse notPiece, Scopes.bindingOf?_detach, if_neg notSite]
    rfl
  · have isSite : id = site := by
      by_contra different
      exact moved (Node.exchange_of_ne different)
    subst isSite
    rw [isPiece, shape] at spelled
    cases spelled
    rw [isPiece, table.2, detached.resolve?_eq, ← table.1.resolve?_eq,
      ← steady.resolve?_reissued after root reissued table.1 attached, isPiece]
    rfl

theorem Steady.exists_reissue (steady : p.Steady) (attached : p.tree.isWithin site p.root = true)
    (isIdentifier : (p.node site).isIdentifier = true) (isRead : p.tree.IsRead site)
    (used : p.usedBinding? site = some b) (name : String) :
    ∃ after,
      Program.replace { p with tree := (Tree.identifier name p.tree).2 } site
        (Tree.identifier name p.tree).1 = .ok ((Tree.identifier name p.tree).1, after) ∧
      after.Steady ∧ p.Reissued after (Node.exchange site (Tree.identifier name p.tree).1) ∧
      after.node (Tree.identifier name p.tree).1 = .identifier name := by
  have linked := steady.linked
  have building := Tree.makes_identifier name p.tree [] p.tree
    (.start linked steady.wellBound steady.nonempty)
  have shape : (Tree.identifier name p.tree).2.node (Tree.identifier name p.tree).1 =
      .identifier name := by
    rw [Tree.identifier, Tree.node_alloc]
    exact if_pos rfl
  generalize (Tree.identifier name p.tree).1 = piece at *
  generalize (Tree.identifier name p.tree).2 = grown at *
  have grows := building.grows
  have loose := building.loose piece (List.mem_cons_self ..)
  have allocated := linked.allocated_of_isWithin attached steady.isTop.allocated
  have notRoot : site ≠ p.root := steady.ne_root fun body isProgram => by
    rw [isProgram] at isIdentifier
    cases isIdentifier
  have free : ¬p.tree.Binds site := linked.not_binds_of_isRead isRead
  have sameNode : grown.node site = p.tree.node site := grows.node allocated
  have isIdentifierGrown : (Program.node { p with tree := grown } site).isIdentifier = true := by
    rw [node, sameNode]
    exact isIdentifier
  have notStatement : (Program.node { p with tree := grown } site).isStatement = false := by
    cases shape : Program.node { p with tree := grown } site <;>
      simp_all [Node.isIdentifier, Node.identifier?, Node.isStatement]
  obtain ⟨grownSteady, -⟩ := steady.grow building
  obtain ⟨after, done, result⟩ := Keeps.replace grownSteady.sound loose.allocated
    (steady.replaceable building attached notRoot)
  rw [unwrap_of_not_statement notStatement] at done result
  have freeGrown : ¬grown.Binds site := by rwa [grows.binds_iff linked allocated]
  have plain : (Program.node { p with tree := grown } site).isDeclarator = false := by
    cases found : Program.node { p with tree := grown } site <;>
      simp_all [Node.isIdentifier, Node.identifier?, Node.isDeclarator]
  have afterSteady := (grownSteady.replace loose.allocated freeGrown plain done).1
  have isStaged : Program.staged { p with tree := grown } site piece =
      { p with tree := grown.replace site piece, scopes := p.scopes.detach site } := by
    rw [staged, unwrap_of_not_statement notStatement]
    dsimp only
    rw [exchanged, removeReferences_of_identifier grownSteady.linked isIdentifierGrown used]
  have tree : after.tree = grown.replace site piece := by rw [result.tree, isStaged]
  have reissued : p.tree.Reissued after.tree p.root (Node.exchange site piece) := by
    rw [tree]
    exact linked.reissued_replace steady.isTop grows loose (by rw [shape]; rfl) attached
      isIdentifier isRead
  have shapeAfter : after.node piece = .identifier name := by
    have spelled := result.edited.identifier? piece
    rw [shape] at spelled
    cases found : after.node piece <;> simp_all [node, Node.identifier?]
  refine ⟨after, done, afterSteady, steady.reissued_of_attachUse afterSteady result.root reissued
    loose.new attached isRead used shapeAfter ?_, shapeAfter⟩
  have attaches := (replace_eq_ok_iff.mp done).2.2
  rw [isStaged, ← tree] at attaches
  have fresh : p.stale = false := Keeps.fresh steady.sound
  have isPiece : (after.node piece).isIdentifier = true := by rw [shapeAfter]; rfl
  have fixed :=
    fixReferences_of_identifier (p := { p with tree := after.tree, scopes := p.scopes.detach site })
      afterSteady.linked (isAttached_of_fixReferences attaches) fresh isPiece
      (steady.bindingOf?_detach_of_new site loose.new)
  rw [fixed, Except.ok.injEq] at attaches
  rw [← attaches]

end Reissue

end Program

end Unravel
