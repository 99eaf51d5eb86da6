import Unravel.Proofs.Program.Change
import Unravel.Proofs.Program.Reached
import Unravel.Simplify.Basic

/-!
Changing a program step by step. In a program whose links are intact every step after the tests
succeeds, so the steps are as good as one (`Rooted.replace_stepwise`, `Rooted.remove_stepwise`): a
change that fails has done nothing (`Rooted.fails_untouched`).
-/

namespace Unravel

namespace Tree

variable {t : Tree} {old new : NodeId}

theorem Linked.replace?_eq (linked : t.Linked) {parent : NodeId}
    (held : t.parent? old = some parent) :
    t.replace? old new = some (t.replace old new) := by
  have member : old ∈ (t.node parent).children := linked.mem_children.mpr held
  obtain ⟨node, found⟩ : ∃ node, (t.node parent).replaceChild? old new = some node := by
    rw [Node.replaceChild?_eq _ _ _ (linked.nodup_children parent), if_pos member]
    exact ⟨_, rfl⟩
  simp only [replace?, replace, held, found, bind, Option.bind_some]
  rfl

theorem isSome_parent?_of_slot? {place : NodeId × Slot} (found : t.slot? old = some place) :
    (t.parent? old).isSome = true := by
  simp only [slot?, bind, Option.bind_eq_some_iff] at found
  obtain ⟨parent, held, -⟩ := found
  rw [held, Option.isSome_some]

end Tree

namespace EditM

variable {α β : Type} {f : Program → Except Error (α × Program)} {p after : Program}
  {result : α} {e : Error} {next : α → EditM β}

theorem atOnce_of_ok (done : f p = .ok (result, after)) : atOnce f p = .ok result after := by
  rw [atOnce, done]

theorem atOnce_of_error (failed : f p = .error e) : atOnce f p = .error e p := by
  rw [atOnce, failed]

theorem bind_of_ok {step : EditM α} (done : step p = .ok result after) :
    (step >>= next) p = next result after := by
  simp only [bind, EStateM.bind, done]

theorem bind_of_error {step : EditM α} (failed : step p = .error e after) :
    (step >>= next) p = .error e after := by
  simp only [bind, EStateM.bind, failed]

theorem eq_of_atOnce_error (failed : atOnce f p = .error e after) : after = p := by
  rw [atOnce] at failed
  split at failed
  · cases failed
  · cases failed
    rfl

theorem fails_atOnce_iff : (∃ e after, atOnce f p = .error e after) ↔ ∃ e, f p = .error e := by
  rw [atOnce]
  split <;> simp_all

theorem get_run (p : Program) : (get : EditM Program) p = .ok p p := rfl

theorem require_of_passes {test : Program → Bool} (passes : test p = true) :
    require test e p = .ok () p :=
  atOnce_of_ok (if_pos passes)

theorem require_of_fails {test : Program → Bool} (fails : test p = false) :
    require test e p = .error e p :=
  atOnce_of_error (by simp [fails])

theorem change_run (f : Program → α × Program) : change f p = .ok (f p).1 (f p).2 := rfl

theorem changeTree_of_some {f : Tree → Option Tree} {tree : Tree} (done : f p.tree = some tree) :
    changeTree f e p = .ok () { p with tree } :=
  atOnce_of_ok (by simp only [done])

theorem rescopeStale_of_ok (done : (if p.stale then p.rescope else .ok p) = .ok after) :
    rescopeStale p = .ok () after := by
  refine atOnce_of_ok ?_
  split at done
  · rename_i stale
    rw [if_pos stale, done]
    rfl
  · rename_i fresh
    cases done
    exact if_neg fresh

theorem discard_of_ok {step : EditM α} (done : step p = .ok result after) :
    discard step p = .ok () after := by
  simp only [discard, Functor.discard, Functor.mapConst, Function.comp, EStateM.map, done]

theorem fixReferences_of_ok {node : NodeId} (done : p.fixReferences node = .ok after) :
    fixReferences node p = .ok () after :=
  atOnce_of_ok (by rw [done]; rfl)

theorem takeAway_run (target : NodeId) (p : Program) : takeAway target p =
    match p.tree.slot? target with
    | none => .error .rootRemoved p
    | some (parent, .required) => blank target parent p
    | some _ => detach target p := by
  rw [takeAway, bind_of_ok (get_run p)]
  rcases p.tree.slot? target with - | ⟨parent, slot⟩
  · rfl
  · cases slot <;> rfl

end EditM

namespace Program

variable {p after : Program} {target replacement parent : NodeId} {slot : Slot} {tree : Tree}

/-! ### The tests of a replacement -/

theorem replace_of_detached (detached : p.isAttached target = false) :
    p.replace target replacement = .error (.detached target) := by
  rw [Program.replace, if_pos (by rw [detached, Bool.not_false])]
  rfl

theorem replace_of_root (attached : p.isAttached target = true) (isRoot : target = p.root) :
    p.replace target replacement = .error .rootReplaced := by
  rw [Program.replace, if_neg (by rw [attached, Bool.not_true]; exact Bool.false_ne_true),
    if_pos isRoot]
  rfl

theorem replace_of_taken (attached : p.isAttached target = true) (notRoot : target ≠ p.root)
    (taken : replacement = p.root ∨ (p.tree.parent? replacement).isSome = true) :
    p.replace target replacement = .error (.attached replacement) := by
  rw [Program.replace, if_neg (by rw [attached, Bool.not_true]; exact Bool.false_ne_true),
    if_neg notRoot, if_pos taken]
  rfl

theorem Rooted.replace_stepwise (rooted : p.Rooted) (allocated : p.tree.Allocated replacement)
    (target : NodeId) : EditM.replace target replacement p =
      EditM.atOnce (fun p => p.replace target replacement) p := by
  rw [EditM.replace]
  cases attached : p.isAttached target with
  | false =>
    rw [EditM.bind_of_error (EditM.require_of_fails attached),
      EditM.atOnce_of_error (replace_of_detached attached)]
  | true =>
    rw [EditM.bind_of_ok (EditM.require_of_passes attached)]
    by_cases isRoot : target = p.root
    · rw [EditM.bind_of_error (EditM.require_of_fails (by simpa using isRoot)),
        EditM.atOnce_of_error (replace_of_root attached isRoot)]
    rw [EditM.bind_of_ok (EditM.require_of_passes (by simpa using isRoot))]
    by_cases taken : replacement = p.root ∨ (p.tree.parent? replacement).isSome = true
    · rw [EditM.bind_of_error (EditM.require_of_fails ?_),
        EditM.atOnce_of_error (replace_of_taken attached isRoot taken)]
      rcases taken with same | held
      · simp [same]
      · simp [Option.isSome_iff_ne_none.mp held]
    have free := not_or.mp taken
    rw [Option.not_isSome_iff_eq_none] at free
    have replaceable : p.Replaceable target replacement := ⟨attached, isRoot, free.2, free.1⟩
    obtain ⟨after, done⟩ := rooted.exists_replace allocated replaceable
    have staging := rooted.staging allocated replaceable
    obtain ⟨parent, held⟩ := staging.possible.held
    have swapped :
        (p.unwrap target replacement).2.tree.replace? target (p.unwrap target replacement).1 =
          some (p.staged target replacement).tree := staging.unwrapped.linked.replace?_eq held
    have attaches :
        EditM.fixReferences (p.unwrap target replacement).1 (p.staged target replacement) =
          .ok () after := EditM.fixReferences_of_ok (replace_eq_ok_iff.mp done).2.2
    rw [EditM.bind_of_ok (EditM.require_of_passes (by simpa using free)),
      EditM.bind_of_ok (EditM.change_run _), EditM.bind_of_ok (EditM.change_run _),
      EditM.bind_of_ok (EditM.changeTree_of_some (by rw [tree_removeReferences, swapped])),
      EditM.atOnce_of_ok done]
    exact EditM.bind_of_ok attaches

/-! ### Removing -/

theorem Rooted.isSome_slot? (rooted : p.Rooted) (held : p.tree.parent? target = some parent) :
    (p.tree.slot? target).isSome = true := by
  obtain ⟨_, _, found⟩ := exists_slot? rooted.linked (Option.isSome_of_mem held)
  rw [found, Option.isSome_some]

theorem Rooted.removeBelow_eq (rooted : p.Rooted) (attached : p.isAttached target = true) :
    EditM.removeBelow target (p.tree.ancestors target) p = EditM.takeAway (p.leaving target) p := by
  induction target using rooted.linked.induction with
  | step target induction =>
    rw [leaving]
    cases held : p.tree.parent? target with
    | none =>
      rw [Tree.ancestors_of_root held, EditM.removeBelow, removalTarget,
        EditM.bind_of_ok (EditM.require_of_passes attached)]
    | some parent =>
      rw [rooted.linked.ancestors_of_parent held, EditM.removeBelow, removalTarget,
        EditM.bind_of_ok (EditM.require_of_passes attached),
        EditM.bind_of_ok (EditM.require_of_passes (rooted.isSome_slot? held))]
      rw [EditM.bind_of_ok (EditM.get_run p)]
      split
      · rename_i shape
        simp only [shape]
        exact induction parent held (rooted.isAttached_parent attached held)
      · simp only

theorem Rooted.blank_stepwise (rooted : p.Rooted) (attached : p.tree.isWithin target p.root = true)
    (held : (p.tree.parent? target).isSome = true)
    (isStatement : (p.node target).isStatement = true) (parent : NodeId) :
    ∃ placed after, EditM.blank target parent p = .ok () after ∧
      Program.replace { p with tree := withEmpty p.tree } target (nextEmpty p.tree) =
        .ok (placed, after) := by
  obtain ⟨allocated, possible⟩ := rooted.replaceable_nextEmpty attached held
  have grown := rooted.grow (grows_withEmpty rooted.linked).1
  obtain ⟨after, done⟩ := grown.exists_replace allocated possible
  have stepwise : EditM.replace target (nextEmpty p.tree) { p with tree := withEmpty p.tree } =
      .ok _ after :=
    (grown.replace_stepwise allocated target).trans (EditM.atOnce_of_ok done)
  refine ⟨_, after, ?_, done⟩
  change (EditM.require _ _ >>= fun _ => _) p = _
  rw [EditM.bind_of_ok (EditM.require_of_passes isStatement), EditM.bind_of_ok (EditM.change_run _)]
  exact EditM.discard_of_ok stepwise

theorem Rooted.detach_stepwise (rooted : p.Rooted) (attached : p.tree.isWithin target p.root = true)
    (detached : p.tree.detach? target = some tree) :
    ∃ after, EditM.detach target p = .ok () after ∧ (if (p.exchanged target tree).stale then
      (p.exchanged target tree).rescope else .ok (p.exchanged target tree)) = .ok after := by
  have detachedRooted := rooted.exchanged (Tree.edited_detach rooted.linked detached)
    (.of_detach detached) attached (by simp)
  have steps : EditM.detach target p = EditM.rescopeStale (p.exchanged target tree) := by
    rw [EditM.detach, EditM.bind_of_ok (EditM.change_run _),
      EditM.bind_of_ok (EditM.changeTree_of_some (by rw [tree_removeReferences, detached]))]
    rfl
  obtain ⟨after, done⟩ := detachedRooted.exists_rescope_stale
  exact ⟨after, steps.trans (EditM.rescopeStale_of_ok done), done⟩

theorem Rooted.remove_stepwise (rooted : p.Rooted) (target : NodeId) :
    EditM.remove target p = EditM.atOnce (fun p => do return ((), ← p.remove target)) p := by
  have linked := rooted.linked
  change EditM.removeBelow target (p.tree.ancestors target) p = _
  cases attached : p.isAttached target with
  | false =>
    rw [EditM.atOnce_of_error (by rw [remove_of_detached attached]; rfl)]
    cases p.tree.ancestors target <;>
      exact EditM.bind_of_error (EditM.require_of_fails attached)
  | true =>
    rw [rooted.removeBelow_eq attached]
    have goneAttached : p.tree.isWithin (p.leaving target) p.root = true := by
      rw [isAttached_eq linked rooted.isTop.top] at attached
      exact linked.isWithin_root_of_above rooted.isTop attached (isWithin_leaving linked target)
    rw [EditM.takeAway_run]
    split
    · rename_i top
      rw [EditM.atOnce_of_error (by rw [remove_of_top attached top]; rfl)]
    · rename_i parent required
      cases isStatement : (p.node (p.leaving target)).isStatement with
      | false =>
        rw [EditM.atOnce_of_error (by rw [remove_of_required attached required isStatement]; rfl)]
        change (EditM.require _ _ >>= fun _ => _) p = _
        rw [EditM.bind_of_error (EditM.require_of_fails isStatement)]
      | true =>
        obtain ⟨placed, after, stepwise, done⟩ :=
          rooted.blank_stepwise goneAttached (Tree.isSome_parent?_of_slot? required)
            isStatement parent
        rw [EditM.atOnce_of_ok
          (by rw [remove_of_statement attached required isStatement done]; rfl), stepwise]
    · rename_i place optional found
      obtain ⟨parent, slot⟩ := place
      have notRequired : slot ≠ .required := fun same => optional parent (same ▸ rfl)
      obtain ⟨tree, detached⟩ := Tree.exists_detach?_of_slot? found notRequired
      obtain ⟨after, stepwise, done⟩ := rooted.detach_stepwise goneAttached detached
      rw [EditM.atOnce_of_ok
        (by rw [remove_of_optional attached found notRequired detached done]; rfl), stepwise]

/-! ### In a workspace -/

theorem Rooted.stepwise_replace {w : Workspace} (rooted : w.program.Rooted)
    (allocated : w.program.tree.Allocated replacement) (target : NodeId) :
    SimplifyM.stepwise (EditM.replace target replacement) w =
      SimplifyM.replace target replacement w := by
  rw [SimplifyM.stepwise, rooted.replace_stepwise allocated, EditM.atOnce, SimplifyM.replace,
    SimplifyM.edit]
  cases w.program.replace target replacement <;> rfl

theorem Rooted.stepwise_remove {w : Workspace} (rooted : w.program.Rooted) (target : NodeId) :
    SimplifyM.stepwise (EditM.remove target) w = SimplifyM.remove target w := by
  rw [SimplifyM.stepwise, rooted.remove_stepwise, EditM.atOnce, SimplifyM.remove, SimplifyM.edit]
  cases w.program.remove target <;> rfl

/-! ### Failures -/

theorem Rooted.replace_fails_iff (rooted : p.Rooted) (allocated : p.tree.Allocated replacement) :
    (∃ e, p.replace target replacement = .error e) ↔ p.isAttached target = false ∨ target = p.root ∨
      replacement = p.root ∨ (p.tree.parent? replacement).isSome = true := by
  constructor
  · rintro ⟨e, failed⟩
    by_contra! fine
    obtain ⟨attached, notRoot, different, detached⟩ := fine
    have replaceable : p.Replaceable target replacement :=
      ⟨by simpa using attached, notRoot, by simpa using detached, different⟩
    obtain ⟨after, done⟩ := rooted.exists_replace allocated replaceable
    rw [done] at failed
    cases failed
  · intro faulty
    cases result : p.replace target replacement with
    | error e => exact ⟨e, rfl⟩
    | ok result =>
      obtain ⟨replaceable, -⟩ := replace_eq_ok_iff.mp result
      simp [replaceable.attached, replaceable.notRoot, replaceable.different,
        replaceable.detached] at faulty

theorem leaving_cases (linked : p.tree.Linked) (target : NodeId) :
    p.leaving target = target ∨
    ∃ kind only, p.node (p.leaving target) = .variableDeclaration kind [only] := by
  rw [leaving]
  induction target using linked.induction with
  | step target induction =>
    cases held : p.tree.parent? target with
    | none => exact .inl (by rw [Tree.ancestors_of_root held, removalTarget])
    | some parent =>
      rw [linked.ancestors_of_parent held, removalTarget]
      split
      · rename_i kind only shape
        refine .inr ((induction parent held).elim (fun same => ?_) id)
        exact ⟨kind, only, by rw [same, shape]⟩
      · exact .inl rfl

theorem Rooted.exists_parent_leaving (rooted : p.Rooted) (attached : p.isAttached target = true)
    (notRoot : target ≠ p.root) : ∃ parent, p.tree.parent? (p.leaving target) = some parent := by
  rw [isAttached_eq rooted.linked rooted.isTop.top] at attached
  have within := rooted.linked.isWithin_root_of_above rooted.isTop attached
    (isWithin_leaving rooted.linked target)
  have different : p.leaving target ≠ p.root := by
    intro same
    rcases leaving_cases rooted.linked target with itself | ⟨kind, only, shape⟩
    · exact notRoot (itself.symm.trans same)
    · obtain ⟨body, isProgram⟩ := rooted.isProgram
      rw [same, isProgram] at shape
      cases shape
  obtain ⟨parent, held, -⟩ := rooted.linked.exists_parent_of_isWithin within different
  exact ⟨parent, held⟩

theorem Rooted.leaving_root (rooted : p.Rooted) : p.leaving p.root = p.root := by
  rw [leaving, Tree.ancestors_of_root rooted.isTop.top, removalTarget]

theorem Rooted.remove_fails_iff (rooted : p.Rooted) :
    (∃ e, p.remove target = .error e) ↔ p.isAttached target = false ∨ target = p.root ∨
      (∃ parent, p.tree.slot? (p.leaving target) = some (parent, .required)) ∧
        (p.node (p.leaving target)).isStatement = false := by
  constructor
  · rintro ⟨e, failed⟩
    by_contra! fine
    obtain ⟨attached, notRoot, optional⟩ := fine
    rw [ne_eq, Bool.not_eq_false] at attached
    obtain ⟨parent, held⟩ := rooted.exists_parent_leaving attached notRoot
    rw [isAttached_eq rooted.linked rooted.isTop.top] at attached
    obtain ⟨after, done⟩ := rooted.exists_remove attached (Option.isSome_of_mem held)
      fun parent required => by
      simpa using optional ⟨parent, required⟩
    rw [done] at failed
    cases failed
  · cases attached : p.isAttached target with
    | false => exact fun _ => ⟨_, remove_of_detached attached⟩
    | true =>
      rintro (⟨⟨⟩⟩ | rfl | ⟨⟨parent, required⟩, notStatement⟩)
      · refine ⟨_, remove_of_top attached ?_⟩
        rw [rooted.leaving_root, Tree.slot?, rooted.isTop.top]
        rfl
      · exact ⟨_, remove_of_required attached required notStatement⟩

/-- Of a program whose links are intact, whatever its table says: step by step comes to the same as
at once; replacing fails exactly if the target is not attached or the root, or the replacement is
the root or held by something; removing fails exactly if the target is not attached or the root, or
what would leave for it has to be there and is no statement; and what fails has changed nothing. -/
theorem Rooted.fails_untouched (rooted : p.Rooted) :
    (∀ target replacement, p.tree.Allocated replacement →
      EditM.replace target replacement p = EditM.atOnce (fun p => p.replace target replacement) p ∧
      ((∃ e after, EditM.replace target replacement p = .error e after) ↔
        p.isAttached target = false ∨ target = p.root ∨ replacement = p.root ∨
          (p.tree.parent? replacement).isSome = true) ∧
      ∀ e after, EditM.replace target replacement p = .error e after → after = p) ∧
    ∀ target,
      EditM.remove target p = EditM.atOnce (fun p => do return ((), ← p.remove target)) p ∧
      ((∃ e after, EditM.remove target p = .error e after) ↔
        p.isAttached target = false ∨ target = p.root ∨
          (∃ parent, p.tree.slot? (p.leaving target) = some (parent, .required)) ∧
            (p.node (p.leaving target)).isStatement = false) ∧
      ∀ e after, EditM.remove target p = .error e after → after = p := by
  refine ⟨fun target replacement allocated => ?_, fun target => ?_⟩
  · rw [rooted.replace_stepwise allocated, EditM.fails_atOnce_iff,
      rooted.replace_fails_iff allocated]
    exact ⟨rfl, .rfl, fun _ _ => EditM.eq_of_atOnce_error⟩
  · rw [rooted.remove_stepwise, EditM.fails_atOnce_iff, ← rooted.remove_fails_iff]
    refine ⟨rfl, ?_, fun _ _ => EditM.eq_of_atOnce_error⟩
    cases p.remove target <;> simp [bind, Except.bind, pure, Except.pure]

/-- The name of a declarator has to be there: removing it fails and changes nothing. -/
theorem exists_fails_untouched : ∃ p, ofTree lonelyLet ⟨3⟩ = .ok p ∧
    (∃ e after, EditM.remove ⟨0⟩ p = .error e after) ∧
    ∀ e after, EditM.remove ⟨0⟩ p = .error e after → after = p := by
  obtain ⟨scopes, made, sound⟩ := exists_ofTree linked_lonelyLet isTop_lonelyLet rfl
  obtain ⟨-, fails, untouched⟩ := sound.rooted.fails_untouched.2 ⟨0⟩
  exact ⟨_, made, fails.mpr (.inr (.inr ⟨⟨⟨1⟩, rfl⟩, rfl⟩)), untouched⟩

end Program

end Unravel
