import Unravel.Proofs.Program.Forget
import Unravel.Proofs.Program.Verify
import Unravel.Program.Edit

/-!
Dropping a part of a program from the table and attaching a part to it.

`Program.removeReferences` leaves a table of everything else (`Program.Lacks`), or marks the
program as stale. `Program.fixReferences` keeps the table then, but for what is declared in the
part when it does not make the table anew (`Program.remakes`).
-/

namespace Unravel

namespace Lexicon

theorem restrict_knowing (l : Lexicon) (known keep : NodeId → Bool) :
    (l.knowing known).restrict keep = (l.restrict keep).knowing known := by
  simp only [Lexicon.restrict, Lexicon.knowing, List.filter_filter, Lexicon.mk.injEq,
    true_and, and_true]
  apply List.filter_congr
  intro d _
  exact Bool.and_comm ..

theorem meaning?_usedAt_of_unknown {l : Lexicon} {known keep : NodeId → Bool} {id : NodeId}
    (unused : keep id = false) (unknown : known id = false) :
    ((l.knowing known).usedAt keep).meaning? id = none := by
  have absent : ((l.knowing known).usedAt keep).declarationOf? id = none := by
    rw [declarationOf?_eq_none]
    rintro d member rfl
    rw [Lexicon.usedAt, Lexicon.knowing, List.mem_filter, unknown] at member
    cases member.2
  simp only [meaning?, absent, Option.bind_none]
  simp only [Lexicon.usedAt, unused, Bool.false_eq_true, if_false]

end Lexicon

namespace Tree

variable {t : Tree} {id node root : NodeId} {d : Declaration} {known : NodeId → Bool}

/-- What stays when everything below a node leaves does so without the rest. -/
theorem Linked.closed (linked : t.Linked) (isTop : t.IsTop root) (known : NodeId → Bool)
    (node : NodeId) : ((t.lexicon root).knowing known).Closed fun id => !t.isWithin id node where
  owner d member stays := by
    rw [Lexicon.knowing, List.mem_filter] at member
    have below := (linked.scopes_owner isTop member.1).2.1
    rw [Bool.not_eq_true'] at stays ⊢
    rw [Bool.eq_false_iff] at stays ⊢
    exact fun within => stays (linked.isWithin_trans below within)
  outer id kind outer scope stays above member := by
    simp only [Lexicon.knowing, lexicon, Option.ite_none_right_eq_some, Option.map_eq_some_iff,
      Prod.mk.injEq] at scope
    obtain ⟨-, -, -, -, rfl⟩ := scope
    have below : t.isWithin id above = true :=
      isWithin_iff.mpr (.inr (mem_scopesAround.mp member).1)
    rw [Bool.not_eq_true'] at stays ⊢
    rw [Bool.eq_false_iff] at stays ⊢
    exact fun within => stays (linked.isWithin_trans below within)

/-- Only identifiers mean anything. -/
theorem Linked.isIdentifier_of_meaning? (linked : t.Linked) (isTop : t.IsTop root)
    (means : ((t.lexicon root).knowing known).meaning? id = some d) :
    (t.node id).isIdentifier = true := by
  rw [Lexicon.meaning?] at means
  split at means
  · rename_i use isUse
    simp only [Lexicon.knowing, lexicon, useAt?, Option.ite_none_right_eq_some,
      Option.bind_eq_some_iff] at isUse
    obtain ⟨-, name, spelled, -⟩ := isUse
    simp [Node.isIdentifier, spelled]
  · obtain ⟨e, found, -⟩ := Option.bind_eq_some_iff.mp means
    obtain ⟨member, rfl⟩ := Lexicon.declarationOf?_some found
    obtain ⟨declaring, -, declared⟩ := (linked.mem_declared isTop).mp (List.mem_filter.mp member).1
    simp [Node.isIdentifier, (linked.introduces_of_mem declared).spelled]

end Tree

namespace Program

variable {p : Program} {known : NodeId → Bool} {node : NodeId}

theorem isAttached_eq (linked : p.tree.Linked) (top : p.tree.parent? p.root = none) (id : NodeId) :
    p.isAttached id = p.tree.isWithin id p.root := by
  have last : (p.tree.ancestors id).getLast? = some p.root ↔ p.root ∈ p.tree.ancestors id := by
    constructor
    · exact List.mem_of_getLast?
    · intro member
      induction id using linked.induction with
      | step id induction =>
        obtain ⟨parent, held, place⟩ := linked.mem_ancestors_iff.mp member
        rw [linked.ancestors_of_parent held]
        rcases place with rfl | place
        · rw [Tree.ancestors_of_root top, List.getLast?_singleton]
        · rw [List.getLast?_cons, induction parent held place, Option.getD_some]
  simp only [isAttached, Tree.isWithin, last]

def Lacks (p : Program) (known : NodeId → Bool) (node : NodeId) : Prop :=
  p.scopes.Describes
    (((p.tree.lexicon p.root).knowing known).restrict fun id => !p.tree.isWithin id node)

/-- What is dropped leaves a table of the rest, unless something there still refers to it. -/
theorem Keeps.removeReferences (keeps : p.Keeps known)
    (attached : p.tree.isWithin node p.root = true)
    (fresh : (p.removeReferences node).stale = false) :
    (p.removeReferences node).Lacks known node := by
  have linked := keeps.linked
  have isTop := keeps.isTop
  have allocated := linked.allocated_of_isWithin attached isTop.allocated
  have regular := keeps.toRooted.regular.knowing known
  have identifiers : ∀ id d, ((p.tree.lexicon p.root).knowing known).meaning? id = some d →
      (p.tree.node id).isIdentifier = true :=
    fun id d => linked.isIdentifier_of_meaning? isTop
  obtain ⟨s', retired, removes⟩ := removes_of_removeReferences keeps.describes regular identifiers
    (linked.nodup_descendants allocated) fresh
  rw [Lacks, tree_removeReferences, root_removeReferences]
  refine keeps.describes.remove regular removes (fun id => ?_) (linked.closed isTop known node) ?_
    identifiers
  · rw [linked.mem_descendants_iff allocated, Bool.not_eq_true', Bool.not_eq_true]
  · exact fun id isScope => (Tree.Linked.scopes_isSome.mp isScope).2

/-- Something outside of what hangs at a node means a declaration in it. -/
def IsNeeded (p : Program) (node : NodeId) : Prop :=
  ∃ id ∈ p.nodes, p.tree.isWithin id node = false ∧
    ∃ d ∈ (p.tree.lexicon p.root).meaning? id, p.tree.isWithin d.identifier node = true

instance (p : Program) (node : NodeId) : Decidable (p.IsNeeded node) :=
  inferInstanceAs (Decidable (∃ id ∈ p.nodes, p.tree.isWithin id node = false ∧
    ∃ d ∈ (p.tree.lexicon p.root).meaning? id, p.tree.isWithin d.identifier node = true))

theorem isWithin_root_of_meaning? (rooted : p.Rooted) {id : NodeId} {d : Declaration}
    (means : (p.tree.lexicon p.root).meaning? id = some d) :
    p.tree.isWithin id p.root = true ∧ p.tree.isWithin d.identifier p.root = true := by
  have linked := rooted.linked
  have bound := Lexicon.meaning?_some means
  refine ⟨?_, (linked.scopes_owner rooted.isTop (Lexicon.binder?_some bound).1).1⟩
  rw [Lexicon.meaning?] at means
  split at means
  · rename_i use isUse
    simp only [Tree.lexicon, Option.ite_none_right_eq_some] at isUse
    exact isUse.1
  · obtain ⟨e, found, -⟩ := Option.bind_eq_some_iff.mp means
    obtain ⟨member, rfl⟩ := Lexicon.declarationOf?_some found
    exact (linked.scopes_owner rooted.isTop member).1

theorem isNeeded_iff (rooted : p.Rooted) : p.IsNeeded node ↔
    ∃ id d, (p.tree.lexicon p.root).meaning? id = some d ∧
      p.tree.isWithin d.identifier node = true ∧
      p.tree.isWithin id node = false := by
  constructor
  · rintro ⟨id, -, outside, d, means, inside⟩
    exact ⟨id, d, means, inside, outside⟩
  · rintro ⟨id, d, means, inside, outside⟩
    refine ⟨id, ?_, outside, d, means, inside⟩
    exact (rooted.linked.mem_descendants_iff rooted.isTop.allocated).mpr
      (isWithin_root_of_meaning? rooted means).1

theorem Sound.stale_removeReferences_iff (sound : p.Sound)
    (attached : p.tree.isWithin node p.root = true) :
    (p.removeReferences node).stale = true ↔ p.IsNeeded node := by
  have linked := sound.rooted.linked
  have isTop := sound.rooted.isTop
  have allocated := linked.allocated_of_isWithin attached isTop.allocated
  have identifiers : ∀ id d, (p.tree.lexicon p.root).meaning? id = some d →
      (p.tree.node id).isIdentifier = true := by
    intro id d means
    have all : (p.tree.lexicon p.root).knowing (fun _ => true) = p.tree.lexicon p.root :=
      Lexicon.knowing_eq_self fun _ _ => rfl
    rw [← all] at means
    exact linked.isIdentifier_of_meaning? isTop means
  have stays := Program.stale_removeReferences_iff sound.describes
    (linked.regular isTop) identifiers (linked.nodup_descendants allocated) (Keeps.fresh sound)
  rw [← not_iff_not, Bool.not_eq_true, stays, isNeeded_iff sound.rooted]
  simp only [Lexicon.Released, linked.mem_descendants_iff allocated, decide_eq_true_eq,
    not_exists, not_and, Bool.not_eq_false, Bool.not_eq_true]
  constructor
  · intro released id d means inside
    by_contra outside
    rw [Bool.not_eq_true] at outside
    rw [released id d means outside] at inside
    cases inside
  · intro needless id d means outside
    by_contra inside
    rw [Bool.not_eq_false] at inside
    rw [needless id d means inside] at outside
    cases outside

def remakes (p : Program) (node : NodeId) : Bool :=
  p.stale || (p.tree.descendants node).any p.introducesNames

theorem bindingOf?_attachUse {t : Tree} {s : Scopes} {id other : NodeId} (different : other ≠ id) :
    (s.attachUse t id).bindingOf? other = s.bindingOf? other := by
  rw [Scopes.attachUse]
  split
  · rfl
  · dsimp only
    split
    · simp only [Scopes.attach, Scopes.bindingOf?]
      rw [Std.HashMap.getElem?_insert, if_neg (by simpa using Ne.symm different)]
      rfl
    · rfl

/-- Identifiers that belong to nothing yet are all attached. -/
theorem foldl_attachNew {t : Tree} {s : Scopes} {ids : List NodeId} (distinct : ids.Nodup)
    (free : ∀ id ∈ ids, s.bindingOf? id = none) :
    ids.foldl (fun s id => if (s.bindingOf? id).isSome then s else s.attachUse t id) s =
      ids.foldl (Scopes.attachUse t) s := by
  induction ids generalizing s with
  | nil => rfl
  | cons head rest induction =>
    rw [List.nodup_cons] at distinct
    rw [List.forall_mem_cons] at free
    rw [List.foldl_cons, List.foldl_cons, free.1, if_neg (by simp)]
    refine induction distinct.2 fun id member => ?_
    rw [bindingOf?_attachUse (by rintro rfl; exact distinct.1 member), free.2 id member]

/-- Without new scopes, what a table lacks are uses and declarations. -/
theorem restrict_eq_usedAt {t : Tree} {root : NodeId} (known : NodeId → Bool)
    (closed : ∀ id, t.isWithin id node = true → t.opens id = false) :
    ((t.lexicon root).knowing known).restrict (fun id => !t.isWithin id node) =
      ((t.lexicon root).knowing fun id => known id && !t.isWithin id node).usedAt fun id =>
        !t.isWithin id node := by
  simp only [Lexicon.restrict, Lexicon.knowing, Lexicon.usedAt, List.filter_filter,
    Lexicon.mk.injEq, and_true]
  refine ⟨funext fun id => ?_, ?_⟩
  · split
    · rfl
    · rename_i inside
      rw [Bool.not_eq_true', Bool.not_eq_false] at inside
      have notOpen := closed id inside
      rw [← Bool.not_eq_true] at notOpen
      symm
      rw [← Option.not_isSome_iff_eq_none, Tree.Linked.scopes_isSome]
      exact fun both => notOpen both.2
  · apply List.filter_congr
    intro d _
    exact Bool.and_comm ..

/-- Attaching a part keeps the table, but for what is declared in it. -/
theorem Rooted.fixReferences (rooted : p.Rooted) (known : NodeId → Bool) (node : NodeId)
    (attached : p.tree.isWithin node p.root = true)
    (lacks : p.stale = false → p.Lacks known node) :
    ∃ r, p.fixReferences node = .ok r ∧ r.tree = p.tree ∧ r.root = p.root ∧
      r.Keeps fun id => p.remakes node || (known id && !p.tree.isWithin id node) := by
  have linked := rooted.linked
  have isTop := rooted.isTop
  have allocated := linked.allocated_of_isWithin attached isTop.allocated
  have isAttached : p.isAttached node = true := by rw [isAttached_eq linked isTop.top, attached]
  rw [Program.fixReferences]
  simp only [isAttached, Bool.not_true, Bool.false_eq_true, if_false]
  cases remakes : p.remakes node with
  | true =>
    rw [Program.remakes] at remakes
    rw [if_pos remakes]
    simp only [Bool.true_or]
    exact rooted.rescope
  | false =>
    rw [Program.remakes] at remakes
    rw [if_neg (by simp [remakes])]
    rw [Bool.or_eq_false_iff, List.any_eq_false] at remakes
    obtain ⟨fresh, plain⟩ := remakes
    have closed : ∀ id, p.tree.isWithin id node = true → p.tree.opens id = false := by
      intro id within
      have notIntroducing := plain id ((linked.mem_descendants_iff allocated).mpr within)
      unfold introducesNames at notIntroducing
      rw [Tree.opens]
      split at notIntroducing <;> simp_all
    have describes := lacks fresh
    rw [Lacks, restrict_eq_usedAt known closed] at describes
    have regular := rooted.regular.knowing fun id => known id && !p.tree.isWithin id node
    have outside : ∀ id ∈ p.tree.descendants node, (!p.tree.isWithin id node) = false := by
      intro id member
      rw [(linked.mem_descendants_iff allocated).mp member, Bool.not_true]
    have free : ∀ id ∈ p.tree.descendants node, p.scopes.bindingOf? id = none := by
      intro id member
      rw [Scopes.bindingOf?, describes.occurrences, Option.bind_eq_none_iff]
      intro d means
      rw [Lexicon.meaning?_usedAt_of_unknown (outside id member)] at means
      · cases means
      · simp [outside id member]
    have distinct := linked.nodup_descendants allocated
    refine ⟨_, rfl, rfl, rfl, ⟨linked, isTop, rooted.isProgram⟩, ?_, fresh⟩
    simp only [Bool.false_or, foldl_attachNew distinct free]
    have attachedUses := describes.attachUses linked isTop regular rfl rfl distinct outside
      fun id member =>
        linked.isWithin_trans ((linked.mem_descendants_iff allocated).mp member) attached
    have whole (l : Lexicon) :
        (l.usedAt fun id => !p.tree.isWithin id node || decide (id ∈ p.tree.descendants node)) =
          l := by
      simp [Lexicon.usedAt, linked.mem_descendants_iff allocated]
    rwa [whole] at attachedUses

theorem Keeps.attachUse_of_free (keeps : p.Keeps known) {id : NodeId}
    (attached : p.tree.isWithin id p.root = true) (free : p.scopes.bindingOf? id = none) :
    p.scopes.attachUse p.tree id = p.scopes := by
  have regular := keeps.toRooted.regular.knowing known
  rw [Scopes.attachUse]
  split
  · rfl
  · rename_i name spelled
    dsimp only
    split
    · rename_i binding resolved
      rw [Option.ite_none_right_eq_some, keeps.describes.resolve?_eq regular keeps.linked
        keeps.isTop rfl attached, Option.bind_eq_some_iff] at resolved
      obtain ⟨isUse, d, found, maintained⟩ := resolved
      have means : ((p.tree.lexicon p.root).knowing known).meaning? id = some d := by
        have uses : ((p.tree.lexicon p.root).knowing known).uses id =
            some ⟨name, p.tree.role id, p.tree.sight id⟩ := by
          simp [Lexicon.knowing, Tree.lexicon, attached, Tree.useAt?, spelled, isUse]
        simp only [Lexicon.meaning?, uses, found]
      rw [Scopes.bindingOf?, keeps.describes.occurrences, means, Option.bind_some,
        maintained] at free
      cases free
    · rfl

/--
Attaching a part that has been attached already changes nothing, unless the table is made anew. -/
theorem Keeps.fixReferences (keeps : p.Keeps known)
    (attached : p.tree.isWithin node p.root = true) :
    ∃ r, p.fixReferences node = .ok r ∧ r.Keeps fun id => p.remakes node || known id := by
  have linked := keeps.linked
  have isTop := keeps.isTop
  have allocated := linked.allocated_of_isWithin attached isTop.allocated
  have isAttached : p.isAttached node = true := by rw [isAttached_eq linked isTop.top, attached]
  rw [Program.fixReferences]
  simp only [isAttached, Bool.not_true, Bool.false_eq_true, if_false]
  cases remakes : p.remakes node with
  | true =>
    rw [Program.remakes] at remakes
    rw [if_pos remakes]
    obtain ⟨r, made, -, -, sound⟩ := keeps.toRooted.rescope
    refine ⟨r, made, ?_⟩
    simp only [Bool.true_or]
    exact sound
  | false =>
    rw [Program.remakes] at remakes
    rw [if_neg (by simp [remakes])]
    have unchanged (ids : List NodeId) (attached : ∀ id ∈ ids, p.tree.isWithin id p.root = true) :
        ids.foldl (fun s id => if (s.bindingOf? id).isSome then s else s.attachUse p.tree id)
          p.scopes = p.scopes := by
      induction ids with
      | nil => rfl
      | cons head rest induction =>
        rw [List.forall_mem_cons] at attached
        rw [List.foldl_cons]
        cases belongs : p.scopes.bindingOf? head with
        | some binding => simpa using induction attached.2
        | none => simpa [keeps.attachUse_of_free attached.1 belongs] using induction attached.2
    refine ⟨_, rfl, ?_⟩
    simp only [Bool.false_or]
    rw [unchanged _ fun id member =>
      linked.isWithin_trans ((linked.mem_descendants_iff allocated).mp member) attached]
    exact keeps

end Program

end Unravel
