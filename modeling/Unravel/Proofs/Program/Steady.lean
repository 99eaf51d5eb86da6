import Unravel.Proofs.Program.Reached
import Unravel.Proofs.Scope.Build

/-!
Programs that are kept and well bound (`Program.Steady`), and the changes that leave them so:
removals, new nodes, and replacements of what neither binds names nor declares variables. What a
change does to the nodes of before is `Program.Leads`.
-/

namespace Unravel

namespace Tree

variable {t : Tree} {id middle : NodeId} {d : Declaration}

theorem Linked.binds_or_declarator (linked : t.Linked) (member : d ∈ t.declarationsAt id)
    (below : t.isWithin d.identifier middle = true) (outside : t.isWithin id middle = false) :
    t.Binds middle ∨ middle ∈ (t.node id).part .declarators := by
  obtain ⟨holder, pattern, part, held, named, position⟩ := (linked.introduces_of_mem member).place
  have above := linked.parent?_of_mem_part held
  have allocated := allocated_of_parent? above
  have binds : t.Binds pattern := by
    refine .place ?_ held
    rcases position with ⟨isPart, -⟩ | ⟨rfl, -⟩
    · exact List.mem_cons_of_mem _ isPart
    · exact List.mem_cons_self ..
  rcases linked.isWithin_linear below (linked.isWithin_of_mem_patternNames allocated named) with
    inside | around
  · exact .inl (linked.binds_of_between allocated binds named below inside)
  · by_cases same : pattern = middle
    · exact .inl (same ▸ binds)
    · rw [linked.isWithin_parent above same] at around
      rcases position with ⟨-, rfl⟩ | ⟨-, isDeclarator⟩
      · rw [around] at outside
        cases outside
      · by_cases isHolder : holder = middle
        · exact .inr (isHolder ▸ isDeclarator)
        · rw [linked.isWithin_parent (linked.parent?_of_mem_part isDeclarator) isHolder, outside]
            at around
          cases around

end Tree

namespace Scopes

variable {s fresh : Scopes} {l : Lexicon} {d : Declaration}

/-- What a table shows of a binding: the declaring identifier, the kind and the declaring node. -/
def shown (s : Scopes) (binding : Option BindingId) : Option (NodeId × BindingKind × NodeId) :=
  binding.map fun id => ((s.binding id).identifier, (s.binding id).kind, (s.binding id).declaration)

theorem Describes.shown_find? (describes : s.Describes l)
    (bound : l.binder? d.owner d.name = some d) :
    s.shown (s.find? d.owner d.name) = some (d.identifier, d.kind, d.declaration) := by
  obtain ⟨id, found, stands⟩ := describes.found _ _ d bound
  rw [found, shown, Option.map_some, stands.identifier, stands.kind, stands.declaration]

theorem shown_bind_eq {means : Option Declaration} {f g : Declaration → Option BindingId}
    (same : ∀ d, means = some d → s.shown (f d) = fresh.shown (g d)) :
    s.shown (means.bind f) = fresh.shown (means.bind g) := by
  cases means with
  | none => rfl
  | some d => exact same d rfl

end Scopes

namespace Program

variable {p q after : Program} {known : NodeId → Bool} {id target replacement placed : NodeId}
  {held : List NodeId} {grown : Tree}

/-- The table of a program verifies, and every attached node belongs to and sees the bindings that
it does in a fresh table. -/
def Agrees (p : Program) : Prop :=
  p.verify = .ok () ∧ ∃ fresh, Scopes.ofTree p.tree p.root = .ok fresh ∧
    ∀ id, p.isAttached id = true →
      p.scopes.shown (p.bindingOf? id) = fresh.shown (fresh.bindingOf? id) ∧
        ∀ name, p.scopes.shown (p.resolve? id name) = fresh.shown (fresh.resolve? p.tree id name)

theorem Sound.agrees (sound : p.Sound) : p.Agrees := by
  have linked := sound.rooted.linked
  have isTop := sound.rooted.isTop
  have regular := linked.regular isTop
  have describes := sound.describes
  obtain ⟨fresh, made, describesFresh⟩ := sound.rooted.exists_ofTree
  refine ⟨sound.verify, fresh, made, fun id attached => ⟨?_, fun name => ?_⟩⟩
  · rw [bindingOf?, Scopes.bindingOf?, Scopes.bindingOf?, describes.occurrences,
      describesFresh.occurrences]
    refine Scopes.shown_bind_eq fun d means => ?_
    rw [describes.shown_find? (Lexicon.meaning?_some means),
      describesFresh.shown_find? (Lexicon.meaning?_some means)]
  · rw [isAttached_eq linked isTop.top] at attached
    rw [resolve?, describes.resolve?_eq regular linked isTop rfl attached,
      describesFresh.resolve?_eq regular linked isTop rfl attached]
    refine Scopes.shown_bind_eq fun d found => ?_
    rw [describes.shown_find? (Lexicon.look?_some found).2,
      describesFresh.shown_find? (Lexicon.look?_some found).2]

/-- A program that is kept, in a store that is well bound. -/
structure Steady (p : Program) : Prop where
  sound : p.Sound
  wellBound : p.tree.WellBound

namespace Steady

variable (steady : p.Steady)

include steady

theorem linked : p.tree.Linked := steady.sound.rooted.linked

theorem isTop : p.tree.IsTop p.root := steady.sound.rooted.isTop

theorem nonempty : p.tree.size ≠ 0 := Nat.ne_of_gt (Nat.zero_lt_of_lt steady.isTop.allocated)

end Steady

/-- What a change does to the nodes that were there: they keep what is theirs but for their
children, and none of them comes to bind names. -/
structure Leads (p q : Program) : Prop where
  root : q.root = p.root
  size : p.tree.size ≤ q.tree.size
  tag : ∀ {id}, p.tree.Allocated id → (q.tree.node id).tag = (p.tree.node id).tag
  binds : ∀ {id}, p.tree.Allocated id → q.tree.Binds id → p.tree.Binds id

namespace Leads

theorem refl (p : Program) : p.Leads p := ⟨rfl, Nat.le_refl _, fun _ => rfl, fun _ binds => binds⟩

theorem allocated (leads : p.Leads q) (isAllocated : p.tree.Allocated id) : q.tree.Allocated id :=
  Nat.lt_of_lt_of_le isAllocated leads.size

theorem trans (first : p.Leads q) (second : q.Leads after) : p.Leads after where
  root := second.root.trans first.root
  size := Nat.le_trans first.size second.size
  tag isAllocated := (second.tag (first.allocated isAllocated)).trans (first.tag isAllocated)
  binds isAllocated
    binds := first.binds isAllocated (second.binds (first.allocated isAllocated) binds)

end Leads

theorem Leads.grow (linked : p.tree.Linked) (grows : p.tree.Grows grown) :
    p.Leads { p with tree := grown } where
  root := rfl
  size := grows.size
  tag isAllocated := by rw [grows.node isAllocated]
  binds isAllocated := (grows.binds_iff linked isAllocated).mp

theorem introducesNames_of_mem {d : Declaration} (member : d ∈ p.tree.declarationsAt id) :
    p.introducesNames id = true := by
  cases shape : p.tree.node id <;>
    simp_all [Tree.declarationsAt, introducesNames, Program.node, Node.tag]

theorem Keeps.sound_of_plain {remade : Bool}
    (keeps : p.Keeps fun id => remade || (true && !p.tree.isWithin id placed))
    (introduces : p.IntroducesBelow placed → remade = true)
    (allocated : p.tree.Allocated placed) (free : ¬p.tree.Binds placed)
    (plain : ∀ id, placed ∉ (p.tree.node id).part .declarators) : p.Sound := by
  refine keeps.sound fun d member => ?_
  rw [Bool.or_eq_true, Bool.true_and, Bool.not_eq_true', or_iff_not_imp_right, Bool.not_eq_false]
  intro within
  obtain ⟨id, -, declares⟩ := (keeps.linked.mem_declared keeps.isTop).mp member
  refine introduces ⟨id, ?_, introducesNames_of_mem declares⟩
  rw [keeps.linked.mem_descendants_iff allocated]
  by_contra outside
  rw [Bool.not_eq_true] at outside
  rcases keeps.linked.binds_or_declarator declares within outside with binds | isDeclarator
  · exact free binds
  · exact plain id isDeclarator

namespace Steady

/-- What neither binds names nor declares variables may be replaced. -/
theorem replace (steady : p.Steady) (allocated : p.tree.Allocated replacement)
    (free : ¬p.tree.Binds target) (plain : (p.node target).isDeclarator = false)
    (done : p.replace target replacement = .ok (placed, after)) : after.Steady ∧ p.Leads after := by
  obtain ⟨isPlaced, result⟩ := Keeps.of_replace steady.sound allocated done
  generalize (p.unwrap target replacement).2 = q at result
  have unwrapped := result.unwrapped
  have edited := result.edited
  -- Unwrapping takes at most one node out of the replacement.
  obtain ⟨wellBound, tag, binds⟩ : q.tree.WellBound ∧
      (∀ id, (q.tree.node id).tag = (p.tree.node id).tag) ∧
      ∀ {id}, q.tree.Binds id → p.tree.Binds id := by
    rcases unwrapped.tree with same | ⟨inner, taken⟩
    · rw [same]
      exact ⟨steady.wellBound, fun _ => rfl, fun binds => binds⟩
    · exact ⟨taken.wellBound (by simp) (by simp) steady.wellBound, taken.tag, taken.binds (by simp)⟩
  have freeInner : ¬q.tree.Binds target := fun isBinding => free (binds isBinding)
  have plainInner : (q.tree.node target).isDeclarator = false := by
    rw [← Node.isDeclarator_tag, tag, Node.isDeclarator_tag]
    exact plain
  have bindsAfter {id : NodeId} (isBinding : after.tree.Binds id) : q.tree.Binds id :=
    edited.binds (fun _ => freeInner) isBinding
  have sound : after.Sound := by
    refine result.keeps.sound_of_plain (fun introduces => ?_) ?_ ?_ fun id isHeld => ?_
    · rw [remakes_iff, ← introducesBelow_congr result.tree]
      exact .inr introduces
    · exact edited.allocated.mpr unwrapped.allocated
    · exact fun isBinding => unwrapped.linked.not_binds_of_top unwrapped.detached
        (bindsAfter isBinding)
    · rw [(edited.node id).part, mem_flatMap_swap] at isHeld
      rcases isHeld with ⟨isHeld, -⟩ | ⟨isHeld, -⟩
      · have above := unwrapped.linked.parent?_of_mem_part isHeld
        rw [unwrapped.detached] at above
        cases above
      · rw [wellBound.declarator isHeld] at plainInner
        cases plainInner
  refine ⟨⟨sound, edited.wellBound (fun _ => freeInner) (fun _ => plainInner) wellBound⟩,
    result.root, ?_, fun {id} _ => ?_, fun {id} _ isBinding => binds (bindsAfter isBinding)⟩
  · exact Nat.le_of_eq (edited.size.trans unwrapped.size).symm
  · rw [edited.tag, tag]

theorem grow (steady : p.Steady) (building : p.tree.Building held grown) :
    Program.Steady { p with tree := grown } ∧ p.Leads { p with tree := grown } :=
  ⟨⟨Keeps.grow steady.sound building.grows, building.wellBound⟩, .grow steady.linked building.grows⟩

theorem adopt {node : Node NodeId} (steady : p.Steady)
    (free : ∀ child ∈ node.children, p.tree.IsTop child ∧ child ≠ p.root)
    (distinct : node.children.Nodup)
    (plain : ∀ part ∈ [.target, .name, .params, .declarators], node.part part = []) :
    Program.Steady { p with tree := (Tree.alloc node p.tree).2 } ∧
      p.Leads { p with tree := (Tree.alloc node p.tree).2 } := by
  have allocated := fun child member => (free child member).1.allocated
  have linked := steady.linked.alloc allocated (fun child member => (free child member).1.top)
    distinct
  have places {binding : NodeId → Prop} : ∀ part ∈ [.target, .name, .params],
      ∀ child ∈ node.part part, binding child := by
    intro part isPlace child isHeld
    rw [plain part (by simp only [List.mem_cons, List.not_mem_nil, or_false] at isPlace ⊢; tauto)]
      at isHeld
    cases isHeld
  have size : p.tree.size ≤ (Tree.alloc node p.tree).2.size := by
    rw [Tree.size_alloc]
    exact Nat.le_succ _
  refine ⟨⟨Keeps.elsewhere steady.sound rfl rfl rfl
    (steady.linked.unchanged_alloc steady.isTop free) linked size,
    steady.wellBound.alloc steady.linked allocated places fun child isHeld => ?_⟩, rfl, size,
    fun isAllocated => ?_, fun _ binds => ?_⟩
  · rw [plain .declarators (by simp)] at isHeld
    cases isHeld
  · rw [Tree.node_alloc, if_neg]
    rintro rfl
    exact p.tree.not_allocated_next isAllocated
  · have isBinding := (steady.linked.binds_of_alloc (fun _ => False) allocated places
      (fun _ impossible => impossible.elim) binds).2
    exact isBinding.resolve_right id

theorem remove (steady : p.Steady) (done : p.remove target = .ok after) :
    after.Steady ∧ p.Leads after ∧ ∀ id, p.tree.IsTop id → after.tree.IsTop id := by
  obtain ⟨-, removed⟩ := Keeps.remove steady.sound done
  generalize p.leaving target = gone at removed
  obtain ⟨remade, kept⟩ := removed.keeps
  have sound : after.Sound := kept.congr fun _ _ => Bool.or_true remade
  have top {before : Tree} {gone id : NodeId} {new : Option NodeId}
      (edited : before.Edited after.tree gone new) (notNew : new ≠ some id)
      (isTop : before.IsTop id) : after.tree.IsTop id := by
    refine ⟨edited.allocated.mpr isTop.allocated, ?_⟩
    rw [edited.parent?, if_neg (Ne.symm notNew), isTop.top, ite_self]
  rcases removed.tree with ⟨edited, -⟩ | ⟨edited, -, isStatement⟩
  · exact ⟨⟨sound, edited.wellBound (by simp) (by simp) steady.wellBound⟩,
      ⟨removed.root, Nat.le_of_eq edited.size.symm, fun _ => edited.tag _,
        fun _ => edited.binds (by simp)⟩, fun id isTop => top edited (by simp) isTop⟩
  · have building : p.tree.Building [nextEmpty p.tree] (withEmpty p.tree) :=
      Tree.makes_alloc .empty (by simp [Node.part]) p.tree [] p.tree
        (.start steady.linked steady.wellBound steady.nonempty)
    have next : nextEmpty p.tree = ⟨p.tree.size⟩ := rfl
    have free : ¬(withEmpty p.tree).Binds gone := fun binds => by
      have isPattern := building.wellBound.pattern binds
      cases shape : (withEmpty p.tree).node gone <;>
        simp_all [Node.isStatement, Node.isPattern]
    have plain : ((withEmpty p.tree).node gone).isDeclarator = false := by
      cases shape : (withEmpty p.tree).node gone <;>
        simp_all [Node.isStatement, Node.isDeclarator]
    obtain ⟨-, leads⟩ := steady.grow building
    refine ⟨⟨sound, edited.wellBound (fun _ => free) (fun _ => plain) building.wellBound⟩,
      ⟨removed.root, ?_, fun isAllocated => ?_, fun isAllocated binds => ?_⟩, fun id isTop => ?_⟩
    · rw [edited.size]
      exact leads.size
    · rw [edited.tag]
      exact leads.tag isAllocated
    · exact leads.binds isAllocated (edited.binds (fun _ => free) binds)
    · have still := building.grows.isTop isTop.allocated isTop.top
      refine top edited ?_ ⟨still.1, still.2⟩
      rw [next, ne_eq, Option.some.injEq]
      rintro rfl
      exact p.tree.not_allocated_next isTop.allocated

end Steady

end Program

end Unravel
