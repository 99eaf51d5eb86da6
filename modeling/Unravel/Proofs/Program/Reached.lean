import Unravel.Proofs.Program.Edit

/-!
The programs that public changes lead to (`Program.Reached`), and when their tables stay equal to
fresh ones.

A replacement patches the table where it could be made anew: nothing outside means what leaves, and
what comes in neither declares nor opens anything by itself. It may stand where a name is declared
all the same, as the name of a declaration or as a parameter, and then the table misses that
declaration.
-/

namespace Unravel

namespace Tree

variable {t : Tree} {root : NodeId} {node : Node NodeId}

theorem Linked.unchanged_alloc (linked : t.Linked) (isTop : t.IsTop root)
    (free : ∀ child ∈ node.children, t.IsTop child ∧ child ≠ root) :
    t.Unchanged (Tree.alloc node t).2 root where
  node {id} attached := by
    rw [node_alloc, if_neg]
    rintro rfl
    exact t.not_allocated_next (linked.allocated_of_isWithin attached isTop.allocated)
  parent? {id} attached := by
    rw [parent?_alloc fun child member => (free child member).1.allocated, if_neg]
    intro member
    obtain ⟨childTop, different⟩ := free id member
    exact different ((isWithin_of_root childTop.top).mp attached)

end Tree

namespace Program

variable {p after : Program} {known : NodeId → Bool} {node target replacement placed : NodeId}

/-- The programs that are made of a tree and then changed by allocating nodes, replacing, removing,
dropping and attaching a part again, attaching a part, and making the table anew. -/
inductive Reached : Program → Prop where
  | made {t : Tree} {root : NodeId} {p : Program} (linked : t.Linked) (isTop : t.IsTop root)
      (made : ofTree t root = .ok p) : Reached p
  | allocated {p : Program} (reached : Reached p) (node : Node NodeId)
      (free : ∀ child ∈ node.children, p.tree.IsTop child ∧ child ≠ p.root)
      (distinct : node.children.Nodup) : Reached (p.allocate (Tree.alloc node)).2
  | replaced {p after : Program} {target replacement placed : NodeId} (reached : Reached p)
      (allocated : p.tree.Allocated replacement)
      (done : p.replace target replacement = .ok (placed, after)) : Reached after
  | removed {p after : Program} {target : NodeId} (reached : Reached p)
      (done : p.remove target = .ok after) : Reached after
  | refreshed {p after : Program} {node : NodeId} (reached : Reached p)
      (done : (p.removeReferences node).fixReferences node = .ok after) : Reached after
  | attached {p after : Program} {node : NodeId} (reached : Reached p)
      (done : p.fixReferences node = .ok after) : Reached after
  | rescoped {p after : Program} (reached : Reached p) (done : p.rescope = .ok after) :
      Reached after

theorem isAttached_of_fixReferences (done : p.fixReferences node = .ok after) :
    p.isAttached node = true := by
  rw [fixReferences] at done
  cases attached : p.isAttached node with
  | true => rfl
  | false => simp [attached] at done

theorem Keeps.refresh (keeps : p.Keeps known) (attached : p.tree.isWithin node p.root = true) :
    ∃ after, (p.removeReferences node).fixReferences node = .ok after ∧ after.tree = p.tree ∧
      after.root = p.root ∧
      after.Keeps fun id =>
        (p.removeReferences node).remakes node || (known id && !p.tree.isWithin id node) := by
  have rooted : (p.removeReferences node).Rooted := by
    refine ⟨?_, ?_, ?_⟩
    · rw [tree_removeReferences]
      exact keeps.linked
    · rw [tree_removeReferences, root_removeReferences]
      exact keeps.isTop
    · rw [Program.node, tree_removeReferences, root_removeReferences]
      exact keeps.isProgram
  obtain ⟨after, made, tree, root, kept⟩ := rooted.fixReferences known _
    (by rwa [tree_removeReferences, root_removeReferences]) (keeps.removeReferences attached)
  rw [tree_removeReferences] at tree kept
  rw [root_removeReferences] at root
  exact ⟨after, made, tree, root, kept⟩

/-- Whatever has been done to a program, its table is kept but for some declarations. -/
theorem Reached.keeps (reached : p.Reached) : ∃ known, p.Keeps known := by
  induction reached with
  | made linked isTop made => exact ⟨_, (sound_of_ofTree linked isTop made).2.2⟩
  | @allocated p _ node free distinct induction =>
    obtain ⟨known, keeps⟩ := induction
    refine ⟨known, keeps.elsewhere rfl rfl rfl (keeps.linked.unchanged_alloc keeps.isTop free)
      (keeps.linked.alloc (fun child member => (free child member).1.allocated)
        (fun child member => (free child member).1.top) distinct) ?_⟩
    change p.tree.size ≤ (Tree.alloc node p.tree).2.size
    rw [Tree.size_alloc]
    exact Nat.le_succ _
  | replaced _ allocated done induction =>
    obtain ⟨known, keeps⟩ := induction
    exact ⟨_, (keeps.of_replace allocated done).2.keeps⟩
  | removed _ done induction =>
    obtain ⟨known, keeps⟩ := induction
    obtain ⟨remade, kept⟩ := (keeps.remove done).2.keeps
    exact ⟨_, kept⟩
  | @refreshed p after node _ done induction =>
    obtain ⟨known, keeps⟩ := induction
    have attached := isAttached_of_fixReferences done
    rw [isAttached_eq (by rw [tree_removeReferences]; exact keeps.linked)
      (by rw [tree_removeReferences, root_removeReferences]; exact keeps.isTop.top),
      tree_removeReferences, root_removeReferences] at attached
    obtain ⟨_, made, -, -, kept⟩ := keeps.refresh attached
    rw [done] at made
    cases made
    exact ⟨_, kept⟩
  | attached _ done induction =>
    obtain ⟨known, keeps⟩ := induction
    have attached := isAttached_of_fixReferences done
    rw [isAttached_eq keeps.linked keeps.isTop.top] at attached
    obtain ⟨_, made, kept⟩ := keeps.fixReferences attached
    rw [done] at made
    cases made
    exact ⟨_, kept⟩
  | rescoped _ done induction =>
    obtain ⟨known, keeps⟩ := induction
    obtain ⟨_, made, -, -, sound⟩ := keeps.toRooted.rescope
    rw [done] at made
    cases made
    exact ⟨_, sound⟩

theorem Reached.sound (reached : p.Reached) (verified : p.verify = .ok ()) : p.Sound := by
  obtain ⟨known, keeps⟩ := reached.keeps
  exact keeps.sound (keeps.verify_iff.mp verified)

theorem Sound.verify (sound : p.Sound) : p.verify = .ok () :=
  (Keeps.verify_iff sound).mpr fun _ _ => rfl

/-! ### When a change keeps the whole table -/

/-- Something at or below a node declares names or opens a scope. -/
def IntroducesBelow (p : Program) (node : NodeId) : Prop :=
  ∃ id ∈ p.tree.descendants node, p.introducesNames id = true

instance (p : Program) (node : NodeId) : Decidable (p.IntroducesBelow node) :=
  inferInstanceAs (Decidable (∃ id ∈ p.tree.descendants node, p.introducesNames id = true))

/-- An identifier at or below a node is declared where it stands. -/
def DeclaresBelow (p : Program) (node : NodeId) : Prop :=
  ∃ d ∈ (p.tree.lexicon p.root).declared, p.tree.isWithin d.identifier node = true

instance (p : Program) (node : NodeId) : Decidable (p.DeclaresBelow node) :=
  inferInstanceAs (Decidable (∃ d ∈ (p.tree.lexicon p.root).declared,
    p.tree.isWithin d.identifier node = true))

theorem remakes_iff : p.remakes node = true ↔ p.stale = true ∨ p.IntroducesBelow node := by
  rw [remakes, Bool.or_eq_true, List.any_eq_true, IntroducesBelow]

theorem introducesBelow_congr {q : Program} (same : q.tree = p.tree) :
    q.IntroducesBelow node ↔ p.IntroducesBelow node := by
  simp only [IntroducesBelow, introducesNames, Program.node, same]

theorem Keeps.verify_iff_of_part {remade : Bool}
    (keeps : p.Keeps fun id => remade || (true && !p.tree.isWithin id node)) :
    p.verify = .ok () ↔ remade = true ∨ ¬p.DeclaresBelow node := by
  rw [keeps.verify_iff]
  simp only [DeclaresBelow, Bool.true_and, Bool.or_eq_true, Bool.not_eq_true', not_exists, not_and,
    Bool.not_eq_true]
  constructor
  · intro all
    cases remade with
    | true => exact .inl rfl
    | false => exact .inr fun d member => by simpa using all d member
  · rintro (isRemade | nothing) d member
    · exact .inl isRemade
    · exact .inr (nothing d member)

theorem Unwrapped.isNeeded_iff {q : Program} (unwrapped : p.Unwrapped placed q)
    (keeps : p.Keeps known) :
    q.IsNeeded node ↔ p.IsNeeded node := by
  have rooted := keeps.toRooted
  have isTop := rooted.isTop
  have allocated : q.tree.Allocated p.root := by
    rw [Tree.Allocated, unwrapped.size]
    exact isTop.allocated
  have lexicon := unwrapped.unchanged.lexicon_eq rooted.linked unwrapped.linked isTop allocated
  have alike := unwrapped.unchanged.alike rooted.linked isTop.top
  have qRooted : q.Rooted := (unwrapped.keeps keeps).toRooted
  rw [Program.isNeeded_iff qRooted, Program.isNeeded_iff keeps.toRooted, unwrapped.root, lexicon]
  refine exists_congr fun id => exists_congr fun d => and_congr_right fun means => ?_
  obtain ⟨attached, declaredAttached⟩ := isWithin_root_of_meaning? rooted means
  rw [alike.isWithin rooted.linked unwrapped.linked attached,
    alike.isWithin rooted.linked unwrapped.linked declaredAttached]

theorem Sound.verify_replace_iff (sound : p.Sound) (allocated : p.tree.Allocated replacement)
    (done : p.replace target replacement = .ok (placed, after)) :
    after.verify = .ok () ↔
      p.IsNeeded target ∨ after.IntroducesBelow placed ∨ ¬after.DeclaresBelow placed := by
  obtain ⟨rfl, result⟩ := Keeps.of_replace sound allocated done
  have unwrapped := result.unwrapped
  have unwrappedSound : Program.Sound _ := unwrapped.keeps sound
  have attached := result.attached
  rw [← unwrapped.root] at attached
  have stale : (p.staged target replacement).stale = true ↔ p.IsNeeded target := by
    rw [← unwrapped.isNeeded_iff sound, ← unwrappedSound.stale_removeReferences_iff attached]
    rfl
  rw [result.keeps.verify_iff_of_part, remakes_iff, stale,
    ← introducesBelow_congr result.tree, or_assoc]

theorem Sound.verify_remove (sound : p.Sound) (done : p.remove target = .ok after) :
    after.verify = .ok () := by
  obtain ⟨remade, kept⟩ := (Keeps.remove sound done).2.keeps
  exact kept.verify_iff.mpr fun _ _ => Bool.or_true remade

theorem Sound.verify_refresh_iff (sound : p.Sound) (attached : p.isAttached node = true) :
    ∃ after, (p.removeReferences node).fixReferences node = .ok after ∧
      (after.verify = .ok () ↔ p.IsNeeded node ∨ p.IntroducesBelow node ∨
        ¬p.DeclaresBelow node) := by
  have rooted := sound.rooted
  rw [isAttached_eq rooted.linked rooted.isTop.top] at attached
  obtain ⟨after, made, tree, root, kept⟩ := Keeps.refresh sound attached
  refine ⟨after, made, ?_⟩
  rw [← tree] at kept
  have sameDeclared : after.DeclaresBelow node ↔ p.DeclaresBelow node := by
    rw [DeclaresBelow, tree, root, DeclaresBelow]
  rw [kept.verify_iff_of_part, remakes_iff, sound.stale_removeReferences_iff attached,
    introducesBelow_congr (tree_removeReferences p node), sameDeclared, or_assoc]

/-- Of a program that verifies, the changes by replacing and by dropping and attaching verify unless
they patch the table while a name is declared in the part that comes in; removals always verify. -/
theorem verify_after_change (reached : p.Reached) (verified : p.verify = .ok ()) :
    (∀ target replacement placed after, p.tree.Allocated replacement →
      p.replace target replacement = .ok (placed, after) →
        (after.verify = .ok () ↔
          p.IsNeeded target ∨ after.IntroducesBelow placed ∨ ¬after.DeclaresBelow placed)) ∧
    (∀ target after, p.remove target = .ok after → after.verify = .ok ()) ∧
    ∀ node, p.isAttached node = true →
      ∃ after, (p.removeReferences node).fixReferences node = .ok after ∧
        (after.verify = .ok () ↔
          p.IsNeeded node ∨ p.IntroducesBelow node ∨ ¬p.DeclaresBelow node) := by
  have sound := reached.sound verified
  refine ⟨fun _ _ _ _ allocated done => ?_, fun _ _ done => ?_, fun _ attached => ?_⟩
  · exact sound.verify_replace_iff allocated done
  · exact sound.verify_remove done
  · exact sound.verify_refresh_iff attached

/-- The tree of `let a;`, and a detached identifier `b`. -/
def lonelyLet : Tree :=
  ⟨#[⟨.identifier "a", some ⟨1⟩⟩, ⟨.variableDeclarator ⟨0⟩ none, some ⟨2⟩⟩,
    ⟨.variableDeclaration .let_ [⟨1⟩], some ⟨3⟩⟩, ⟨.program [⟨2⟩], none⟩, ⟨.identifier "b", none⟩]⟩

theorem linked_lonelyLet : lonelyLet.Linked := Tree.linked_of_checks (by decide)

theorem isTop_lonelyLet : lonelyLet.IsTop ⟨3⟩ := ⟨by decide, by decide⟩

/-- The declaration is replaced by an identifier, removed, and dropped and attached again. Each time
the table verifies: first nothing is declared in what comes in, and last the declaration itself
comes in. -/
theorem exists_verify_after_change :
    ∃ p replaced removed refreshed, ofTree lonelyLet ⟨3⟩ = .ok p ∧ p.verify = .ok () ∧
      (p.replace ⟨2⟩ ⟨4⟩ = .ok (⟨4⟩, replaced) ∧ replaced.verify = .ok ()) ∧
        (p.remove ⟨2⟩ = .ok removed ∧ removed.verify = .ok ()) ∧
          (p.removeReferences ⟨2⟩).fixReferences ⟨2⟩ = .ok refreshed ∧
          refreshed.verify = .ok () := by
  obtain ⟨scopes, made, sound⟩ := exists_ofTree linked_lonelyLet isTop_lonelyLet rfl
  have reached : Reached ⟨lonelyLet, ⟨3⟩, scopes, false⟩ :=
    .made linked_lonelyLet isTop_lonelyLet made
  have replaceable : Replaceable ⟨lonelyLet, ⟨3⟩, scopes, false⟩ ⟨2⟩ ⟨4⟩ :=
    ⟨rfl, by simp, rfl, by simp⟩
  have allocated : lonelyLet.Allocated ⟨4⟩ := by decide
  obtain ⟨replaced, isReplaced, result⟩ := Keeps.replace sound allocated replaceable
  have attached : lonelyLet.isWithin ⟨2⟩ ⟨3⟩ = true := rfl
  obtain ⟨removed, isRemoved⟩ := sound.rooted.exists_remove attached rfl fun _ _ => rfl
  obtain ⟨afterReplacing, afterRemoving, afterRefreshing⟩ :=
    verify_after_change reached sound.verify
  obtain ⟨refreshed, isRefreshed, refreshes⟩ := afterRefreshing ⟨2⟩ rfl
  refine ⟨_, replaced, removed, refreshed, made, sound.verify, ⟨isReplaced, ?_⟩,
    ⟨isRemoved, afterRemoving _ _ isRemoved⟩, isRefreshed, refreshes.mpr (.inr (.inl ?_))⟩
  · refine (afterReplacing _ _ ⟨4⟩ _ allocated isReplaced).mpr (.inr (.inr ?_))
    have tree : replaced.tree = lonelyLet.replace ⟨2⟩ ⟨4⟩ := result.tree
    have root : replaced.root = ⟨3⟩ := result.root
    rw [DeclaresBelow, tree, root]
    decide
  · exact ⟨⟨2⟩, show (⟨2⟩ : NodeId) ∈ lonelyLet.descendants ⟨2⟩ by decide, rfl⟩

/-- A declared identifier that is replaced by another one leaves a table without the declaration. -/
theorem exists_replace_not_verify : ∃ p after, ofTree lonelyLet ⟨3⟩ = .ok p ∧
    p.verify = .ok () ∧ p.replace ⟨0⟩ ⟨4⟩ = .ok (⟨4⟩, after) ∧ after.verify ≠ .ok () := by
  obtain ⟨scopes, made, sound⟩ := exists_ofTree linked_lonelyLet isTop_lonelyLet rfl
  have replaceable : Replaceable ⟨lonelyLet, ⟨3⟩, scopes, false⟩ ⟨0⟩ ⟨4⟩ :=
    ⟨rfl, by simp, rfl, by simp⟩
  have allocated : lonelyLet.Allocated ⟨4⟩ := by decide
  obtain ⟨after, done, result⟩ := Keeps.replace sound allocated replaceable
  have placed : (Program.unwrap ⟨lonelyLet, ⟨3⟩, scopes, false⟩ ⟨0⟩ ⟨4⟩).1 = ⟨4⟩ := rfl
  rw [placed] at done
  refine ⟨_, after, made, sound.verify, done, ?_⟩
  have tree : after.tree = lonelyLet.replace ⟨0⟩ ⟨4⟩ := result.tree
  have root : after.root = ⟨3⟩ := result.root
  rw [ne_eq, sound.verify_replace_iff allocated done]
  obtain ⟨afterTree, afterRoot, afterScopes, afterStale⟩ := after
  subst tree root
  -- Nothing in the condition depends on the table.
  let before : Program := ⟨lonelyLet, ⟨3⟩, .empty, false⟩
  let changed : Program := ⟨lonelyLet.replace ⟨0⟩ ⟨4⟩, ⟨3⟩, .empty, false⟩
  change ¬(before.IsNeeded ⟨0⟩ ∨ changed.IntroducesBelow ⟨4⟩ ∨ ¬changed.DeclaresBelow ⟨4⟩)
  decide

end Program

end Unravel
