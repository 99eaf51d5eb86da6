import Unravel.Proofs.Program.Steady

/-!
What a node sees that comes in by an exchange. Where nothing that comes in opens a scope, it sees
what the node saw that goes out (`Tree.Edited.sight_of_incoming`), and where nothing that comes in
declares a name, the declarations that stay are all there are (`Tree.Edited.declared_eq`).
-/

namespace Unravel

namespace Node

variable {α : Type}

/-- Whether a node neither opens a scope nor declares names. -/
def isSilent : Node α → Bool
  | program _ | variableDeclaration .. | function _ | classDef _ | block _ | for_ .. |
    switch .. => false
  | _ => true

theorem isSilent_tag (n : Node α) : n.tag.isSilent = n.isSilent := by cases n <;> rfl

theorem pattern_eq_nil_of_label {a : α} {n : Node α} (held : a ∈ n.part .label) :
    n.part .pattern = [] := by
  cases n <;> simp_all [part]

end Node

namespace Tree

variable {t after : Tree} {id old new root : NodeId} {name : String} {owner : NodeId}

theorem opens_of_isSilent (silent : (t.node id).isSilent = true) : t.opens id = false := by
  rw [opens, scopeKind?]
  cases shape : t.node id <;> simp_all [Node.isSilent]

theorem declarationsAt_of_isSilent (silent : (t.node id).isSilent = true) :
    t.declarationsAt id = [] := by
  rw [declarationsAt]
  cases shape : t.node id <;> simp_all [Node.isSilent, Node.tag]

theorem functionNamedBy?_of_not_binds (free : ¬t.Binds id) : t.functionNamedBy? id = none := by
  rw [functionNamedBy?, Option.filter_eq_none_iff]
  intro parent held named
  rw [Bool.and_eq_true, holds, decide_eq_true_eq] at named
  exact free (.place (by simp) named.1)

theorem Linked.isUse_role_of_label (linked : t.Linked) {parent : NodeId}
    (held : id ∈ (t.node parent).part .label) : (t.role id).isUse = false := by
  have above := linked.parent?_of_mem_part held
  rw [role, above]
  cases shape : t.node parent with
  | member base key computed =>
    cases computed <;> simp_all [Node.part, Role.isUse, Role.reads, Role.writes]
  | property key value computed =>
    cases computed <;> simp_all [Node.part, Role.isUse, Role.reads, Role.writes]
  | classMethod => simp_all [Node.part, Role.isUse, Role.reads, Role.writes]
  | _ => simp [shape, Node.part] at held

theorem Linked.not_binds_of_label (linked : t.Linked) {parent : NodeId}
    (held : id ∈ (t.node parent).part .label) : ¬t.Binds id := by
  intro binds
  have above := linked.parent?_of_mem_part held
  cases binds with
  | place isPlace position =>
    obtain rfl : _ = parent :=
      Option.some.inj ((linked.parent?_of_mem_part position).symm.trans above)
    obtain ⟨init, shape⟩ | ⟨f, shape, -⟩ | ⟨c, shape, -⟩ := place_cases isPlace position <;>
      rw [shape] at held <;> cases held
  | nested outer position =>
    obtain rfl : _ = parent :=
      Option.some.inj ((linked.parent?_of_mem_part position).symm.trans above)
    rw [Node.pattern_eq_nil_of_label held] at position
    cases position

theorem scopeNode?_eq (free : ¬t.Binds id) (closed : t.opens id = false) :
    t.scopeNode? id = t.scopeAmong? (some id) (t.ancestors id) := by
  rw [scopeNode?, functionNamedBy?_of_not_binds free]
  dsimp only
  rw [scopeAmong?, closed]
  rfl

theorem Exchangeable.stays_parent (possible : t.Exchangeable old (some new)) (linked : t.Linked)
    {parent : NodeId} (held : t.parent? old = some parent) : t.Stays old (some new) parent where
  outside := by
    rw [Bool.eq_false_iff]
    intro within
    have same := linked.isWithin_antisymm within (linked.isWithin_of_parent held)
    rw [same] at held
    exact linked.parent?_ne_self old held
  present := by rw [← isIncoming_parent linked possible held, possible.apart]

namespace Edited

variable (edited : t.Edited after old (some new)) (linked : t.Linked)
  (possible : t.Exchangeable old (some new)) (free : ¬t.Binds old)
  (silent : ∀ id, t.isWithin id new = true → (t.node id).isSilent = true)

include edited linked possible

theorem isSilent_after {id : NodeId}
    (silent : ∀ id, t.isWithin id new = true → (t.node id).isSilent = true)
    (within : after.isWithin id new = true) : (after.node id).isSilent = true := by
  rw [edited.isWithin_new linked possible rfl] at within
  rw [← Node.isSilent_tag, edited.tag, Node.isSilent_tag]
  exact silent id within

theorem holds_new (parent : NodeId) (part : Part) :
    after.holds parent new part = t.holds parent old part := by
  have apart : new ∉ (t.node parent).part part := fun held => by
    have above := linked.parent?_of_mem_part held
    rw [possible.detached new rfl] at above
    cases above
  rw [Tree.holds, Tree.holds, (edited.node parent).part, decide_eq_decide, mem_flatMap_swap]
  simp [apart]

theorem role_new : after.role new = t.role old := by
  obtain ⟨parent, held⟩ := possible.held
  have alike := edited.alike linked possible
  have stays := possible.stays_parent linked held
  have heldAfter := edited.parent?_new possible rfl
  rw [held] at heldAfter
  have afterLinked := edited.linked linked possible
  have same : after.holds parent new = t.holds parent old :=
    funext fun part => edited.holds_new linked possible parent part
  rw [role_of_parent heldAfter, role_of_parent held, alike.tag stays, same,
    alike.ancestors linked afterLinked stays, alike.patternRole linked stays]

theorem scopeAmong?_new :
    after.scopeAmong? (some new) (after.ancestors new) =
      t.scopeAmong? (some old) (t.ancestors old) := by
  obtain ⟨parent, held⟩ := possible.held
  have alike := edited.alike linked possible
  have stays := possible.stays_parent linked held
  have heldAfter := edited.parent?_new possible rfl
  rw [held] at heldAfter
  have afterLinked := edited.linked linked possible
  rw [afterLinked.ancestors_of_parent heldAfter, linked.ancestors_of_parent held,
    scopeAmong?, scopeAmong?, alike.opens stays, alike.ancestors linked afterLinked stays,
    alike.scopeAmong?_ancestors linked stays, Option.any_some, Option.any_some,
    edited.holds_new linked possible]

include silent

theorem scopeAmong?_of_incoming (within : after.isWithin id new = true) (inner : Option NodeId) :
    after.scopeAmong? inner (id :: after.ancestors id) =
      after.scopeAmong? (some new) (after.ancestors new) := by
  have afterLinked := edited.linked linked possible
  induction id using afterLinked.induction generalizing inner with
  | step id induction =>
    have closed := opens_of_isSilent (edited.isSilent_after linked possible silent within)
    rw [scopeAmong?, closed]
    by_cases isNew : id = new
    · rw [isNew]
      rfl
    · obtain ⟨parent, held⟩ : ∃ parent, after.parent? id = some parent := by
        by_contra top
        rw [not_exists, ← Option.eq_none_iff_forall_ne_some] at top
        rw [isWithin_of_root top] at within
        exact isNew within
      rw [afterLinked.isWithin_parent held isNew] at within
      rw [afterLinked.ancestors_of_parent held]
      exact induction parent held within (some id)

include free

theorem functionNamedBy?_of_incoming (within : after.isWithin id new = true) :
    after.functionNamedBy? id = none := by
  have afterLinked := edited.linked linked possible
  by_cases isNew : id = new
  · apply functionNamedBy?_of_not_binds
    intro binds
    rw [isNew] at binds
    exact linked.not_binds_of_top (possible.detached new rfl) (edited.binds (fun _ => free) binds)
  · rw [functionNamedBy?, Option.filter_eq_none_iff]
    intro parent held named
    rw [afterLinked.isWithin_parent held isNew] at within
    have shape := edited.isSilent_after linked possible silent within
    cases found : after.node parent <;> simp_all [Node.isSilent, Node.tag]

theorem sight_of_incoming (closed : t.opens old = false) (within : after.isWithin id new = true) :
    after.sight id = t.sight old := by
  have afterLinked := edited.linked linked possible
  have place : after.scopeNode? id = t.scopeNode? old := by
    rw [scopeNode?, edited.functionNamedBy?_of_incoming linked possible free silent within,
      scopeNode?_eq free closed]
    dsimp only
    rw [edited.scopeAmong?_of_incoming linked possible silent within,
      edited.scopeAmong?_new linked possible]
  rw [sight, sight, place]
  cases found : t.scopeNode? old with
  | none => rfl
  | some node =>
    rw [scopeNode?_eq free closed] at found
    have stays : t.Stays old (some new) node := by
      obtain ⟨parent, held⟩ := possible.held
      have above := (mem_of_scopeAmong? found).1
      rw [linked.ancestors_of_parent held, List.mem_cons] at above
      have parentStays := possible.stays_parent linked held
      rcases above with rfl | above
      · exact parentStays
      · exact parentStays.of_mem_ancestors linked possible above
    simp only [Option.toList_some, List.flatMap_cons, List.flatMap_nil, List.append_nil]
    exact (edited.alike linked possible).scopesFrom linked afterLinked stays

theorem declared_eq (isTop : t.IsTop root) (attached : t.isWithin old root = true)
    (notNew : some new ≠ some root) (plain : ∀ id, old ∉ (t.node id).part .declarators) :
    (after.lexicon root).declared =
      ((t.lexicon root).declared).filter fun d => !t.isWithin d.identifier old := by
  have afterLinked := edited.linked linked possible
  have topAfter := edited.top_after linked possible isTop attached notNew
  rw [← edited.filter_declared linked possible isTop attached notNew, eq_comm, List.filter_eq_self]
  intro d member
  rw [Bool.not_eq_true', Bool.eq_false_iff]
  intro incoming
  rw [isIncoming_some, ← edited.isWithin_new linked possible rfl] at incoming
  obtain ⟨id, -, declares⟩ := (afterLinked.mem_declared topAfter).mp member
  by_cases within : after.isWithin id new = true
  · rw [declarationsAt_of_isSilent (edited.isSilent_after linked possible silent within)]
      at declares
    cases declares
  · rw [Bool.not_eq_true] at within
    rcases afterLinked.binds_or_declarator declares incoming within with binds | isDeclarator
    · exact linked.not_binds_of_top (possible.detached new rfl) (edited.binds (fun _ => free) binds)
    · have sameHold := edited.holds_new linked possible id .declarators
      rw [Tree.holds, Tree.holds, decide_eq_decide] at sameHold
      exact plain id (sameHold.mp isDeclarator)

end Edited

end Tree

end Unravel
