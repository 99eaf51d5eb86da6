import Unravel.Proofs.Program.Weight
import Unravel.Proofs.Scope.Added
import Unravel.Proofs.Simplify.Run
import Unravel.Proofs.Simplify.Steadily

/-!
Edits that do not fail: a piece that has just been built can take the place of every node but the
root, and what can be removed is removed. Steps that make no program heavier, and lighter if they
report a change, do so when they are put together (`Program.Lightens`).
-/

namespace Unravel

variable {M : Type} [AddCommMonoid M] [LinearOrder M] {W : Weighing M} {bound : M}

namespace Program

variable {p q after : Program} {grown : Tree} {target value id : NodeId} {held : List NodeId}
  {R : M → M → Prop}

/-- A piece that has just been built may replace an attached node. -/
theorem Steady.replaceable (steady : p.Steady) (building : p.tree.Building (value :: held) grown)
    (attached : p.tree.isWithin target p.root = true) (notRoot : target ≠ p.root) :
    Replaceable { p with tree := grown } target value := by
  have loose := building.loose value (List.mem_cons_self ..)
  have top := building.grows.isTop steady.isTop.allocated steady.isTop.top
  refine ⟨?_, notRoot, loose.detached, ?_⟩
  · rw [isAttached_eq building.grows.linked top.2,
      (building.grows.alike steady.linked).isWithin steady.linked building.grows.linked
        (steady.linked.allocated_of_isWithin attached steady.isTop.allocated)]
    exact attached
  · rintro rfl
    exact loose.new steady.isTop.allocated

structure Offers (p : Program) (W : Weighing M) (bound : M) (target piece : NodeId)
    (grown : Tree) : Prop where
  building : p.tree.Building [piece] grown
  weight_le : grown.weight W piece ≤ bound
  possible : Replaceable { p with tree := grown } target piece

/-- A new piece of at most a certain weight has taken the place of a node. -/
def Exchanged (p : Program) (W : Weighing M) (bound : M) (target : NodeId)
    (after : Program) : Prop :=
  ∃ piece grown, p.Offers W bound target piece grown ∧
    Replaced { p with tree := grown } target piece after

namespace Exchanged

variable (steady : p.Steady) (exchanged : p.Exchanged W bound target after)

include steady exchanged

theorem attached : p.tree.isWithin target p.root = true := by
  obtain ⟨piece, grown, offers, replaced⟩ := exchanged
  rw [← offers.building.grows.isWithin steady.linked steady.isTop.allocated]
  exact replaced.attached

theorem loses : p.Loses target after := by
  obtain ⟨piece, grown, offers, replaced⟩ := exchanged
  have loose := offers.building.loose piece (List.mem_singleton_self _)
  exact replaced.loses steady.linked steady.isTop offers.building.grows loose.new

variable [IsOrderedCancelAddMonoid M] [IsBotZeroClass M]

theorem weight_carried (carries : W.Carries R)
    (related : ∀ x, x ≤ bound → R x (p.tree.weight W target)) :
    R (after.weight W) (p.weight W) := by
  have allocated := steady.linked.allocated_of_isWithin (exchanged.attached steady)
    steady.isTop.allocated
  obtain ⟨piece, grown, offers, replaced⟩ := exchanged
  rw [← weight_grow steady.linked steady.isTop offers.building.grows]
  refine replaced.weight_carried carries fun x lighter => ?_
  change R x (grown.weight W target)
  rw [offers.building.grows.weight_eq steady.linked allocated]
  exact related x (lighter.trans offers.weight_le)

theorem weight_le (lighter : bound ≤ p.tree.weight W target) (isAllocated : p.tree.Allocated id) :
    after.tree.weight W id ≤ p.tree.weight W id := by
  have allocated := steady.linked.allocated_of_isWithin (exchanged.attached steady)
    steady.isTop.allocated
  obtain ⟨piece, grown, offers, replaced⟩ := exchanged
  have grows := offers.building.grows
  rw [← grows.weight_eq steady.linked isAllocated]
  refine replaced.weight_le ?_ (grows.allocated isAllocated)
  change grown.weight W piece ≤ grown.weight W target
  rw [grows.weight_eq steady.linked allocated]
  exact offers.weight_le.trans lighter

end Exchanged

/-- A program has become no heavier, and lighter if it is said to have changed. -/
structure Lightens (p : Program) (W : Weighing M) (changed : Bool) (q : Program) : Prop where
  le : q.weight W ≤ p.weight W
  lt : changed = true → q.weight W < p.weight W

namespace Lightens

variable {first second changed : Bool}

theorem refl (p : Program) : p.Lightens W false p := ⟨le_rfl, by simp⟩

theorem of_le (le : q.weight W ≤ p.weight W) : p.Lightens W false q := ⟨le, by simp⟩

theorem of_lt (lt : q.weight W < p.weight W) : p.Lightens W changed q := ⟨lt.le, fun _ => lt⟩

theorem trans (before : p.Lightens W first q) (further : q.Lightens W second after) :
    p.Lightens W (second || first) after where
  le := further.le.trans before.le
  lt changed := by
    rcases (Bool.or_eq_true _ _).mp changed with changed | changed
    · exact (further.lt changed).trans_le before.le
    · exact further.le.trans_lt (before.lt changed)

end Lightens

theorem Exchanged.lightens [IsOrderedCancelAddMonoid M] [IsBotZeroClass M] {changed : Bool}
    (steady : p.Steady) (exchanged : p.Exchanged W bound target after)
    (lighter : bound < p.tree.weight W target) :
    p.Lightens W changed after :=
  .of_lt (exchanged.weight_carried steady W.carries_lt fun _ le => le.trans_lt lighter)

theorem Removable.exists_taken (removable : p.Removable target) (steady : p.Steady) :
    ∃ after, p.remove target = .ok after ∧ p.Taken target after := by
  obtain ⟨after, done⟩ :=
    steady.sound.rooted.exists_remove removable.attached removable.held removable.optional
  exact ⟨after, done, steady.sound, removable.attached, (Keeps.remove steady.sound done).2⟩

end Program

namespace SimplifyM.Surely

open Program

variable {p : Program} {α β : Type} {post : α → Program → Prop} {post' : β → Program → Prop}
  {target replacement : NodeId}

theorem exists_ok {action : SimplifyM α} (surely : Surely p action post) (c : Context) :
    ∃ result w, action ⟨p, c⟩ = .ok result w ∧ w.program.Steady ∧ p.Leads w.program ∧
      post result w.program := by
  have result := surely c
  split at result
  · rename_i made
    exact ⟨_, _, made, result⟩
  · exact result.2.elim

theorem replace (steady : p.Steady) (free : p.Free target)
    (allocated : p.tree.Allocated replacement) (possible : p.Replaceable target replacement) :
    Surely p (SimplifyM.replace target replacement) fun _ q => p.Replaced target replacement q := by
  intro c
  obtain ⟨after, done, placed⟩ := Keeps.replace steady.sound allocated possible
  obtain ⟨still, leads⟩ := steady.replace allocated free.notBinding free.notDeclaring done
  simp only [SimplifyM.replace, edit, done]
  exact ⟨still, leads, steady.sound, possible, allocated, placed⟩

theorem discardReplace (steady : p.Steady) (free : p.Free target)
    (allocated : p.tree.Allocated replacement) (possible : p.Replaceable target replacement) :
    Surely p (discard (SimplifyM.replace target replacement))
      fun _ q => p.Replaced target replacement q :=
  .bind (replace steady free allocated possible) fun _ _ steady _ replaced => .pure steady replaced

theorem replaceAndRecord {kind : EventKind} {label : String} (steady : p.Steady)
    (free : p.Free target) (allocated : p.tree.Allocated replacement)
    (possible : p.Replaceable target replacement) :
    Surely p (SimplifyM.replaceAndRecord kind label target replacement) fun _ q =>
      p.Replaced target replacement q :=
  .snippet fun _ => .bind (replace steady free allocated possible) fun _ _ steady _ replaced =>
    .snippet fun _ => .mono (.record kind _ _ steady) fun _ _ same => same ▸ replaced

theorem remove (steady : p.Steady) (removable : p.Removable target) :
    Surely p (SimplifyM.remove target) fun _ q =>
      p.Taken target q ∧ ∀ id, p.tree.IsTop id → q.tree.IsTop id := by
  intro c
  obtain ⟨after, done, taken⟩ := removable.exists_taken steady
  obtain ⟨still, leads, tops⟩ := steady.remove done
  simp only [SimplifyM.remove, edit, done]
  exact ⟨still, leads, taken, tops⟩

theorem offer {action : StateM Tree NodeId} {put : NodeId → SimplifyM β} (steady : p.Steady)
    (adds : p.tree.Adds W [] Tree.piece action bound)
    (attached : p.tree.isWithin target p.root = true) (notRoot : target ≠ p.root)
    (puts : p.Offers W bound target (action p.tree).1 (action p.tree).2 →
      Program.Steady { p with tree := (action p.tree).2 } →
      p.Leads { p with tree := (action p.tree).2 } →
      Surely { p with tree := (action p.tree).2 } (put (action p.tree).1) post') :
    Surely p (SimplifyM.build action >>= put) post' := by
  have building :=
    adds.makes p.tree [] p.tree (.start steady.linked steady.wellBound steady.nonempty)
  have weight_le := adds.weight_le (.start steady.linked steady.wellBound steady.nonempty)
  rw [List.append_nil] at building
  refine .bind (.buildPieces _ steady building) fun piece q after leads made => ?_
  obtain ⟨rfl, rfl⟩ := made
  exact puts ⟨building, weight_le, steady.replaceable building attached notRoot⟩ after leads

/-- A piece that has just been built takes the place of a node. -/
theorem exchange {action : StateM Tree NodeId} {put : NodeId → SimplifyM β}
    {J : β → Program → Prop} (steady : p.Steady)
    (adds : p.tree.Adds W [] Tree.piece action bound) (free : p.Free target)
    (attached : p.tree.isWithin target p.root = true) (notRoot : target ≠ p.root)
    (puts : ∀ piece q, q.Steady → q.Free target → q.tree.Allocated piece →
      q.Replaceable target piece →
      Surely q (put piece) fun result r => q.Replaced target piece r ∧ J result r) :
    Surely p (SimplifyM.build action >>= put) fun result r =>
      p.Exchanged W bound target r ∧ J result r := by
  refine offer steady adds attached notRoot fun offers after leads => ?_
  have loose := offers.building.loose _ (List.mem_singleton_self _)
  refine .mono (puts _ _ after (free.leads leads) loose.allocated offers.possible)
    fun result r holds => ?_
  exact ⟨⟨_, _, offers, holds.1⟩, holds.2⟩

/-! ### Loops -/

/-- Steps that lighten a program do so one after the other. What they keep may depend on the items
that are still to come. -/
theorem anyChange {ι : Type} {step : ι → SimplifyM Bool} {items : List ι}
    (inv : List ι → Program → Prop) (steady : p.Steady) (holds : inv items p)
    (each : ∀ item rest q, item ∈ items → q.Steady → p.Leads q → inv (item :: rest) q →
      Surely q (step item) fun changed r => inv rest r ∧ q.Lightens W changed r) :
    Surely p (SimplifyM.anyChange items step)
      fun changed q => inv [] q ∧ p.Lightens W changed q := by
  suffices general : ∀ (start : Bool) (first : Program), first.Lightens W start p →
      Surely p (items.foldlM (fun changed item => return (← step item) || changed) start)
        fun changed q => inv [] q ∧ first.Lightens W changed q from general false p (.refl p)
  induction items generalizing p with
  | nil => exact fun start first lightens => .pure steady ⟨holds, lightens⟩
  | cons head rest induction =>
    intro start first lightens
    rw [List.foldlM_cons, bind_assoc]
    refine .bind (each head rest p (List.mem_cons_self ..) steady (.refl p) holds)
      fun changed q steady leads result => ?_
    rw [pure_bind]
    exact induction steady result.1 (fun item rest r member steady further =>
      each item rest r (List.mem_cons_of_mem _ member) steady (leads.trans further)) _ first
        (lightens.trans result.2)

theorem ifAttached {id : NodeId} {step : SimplifyM Bool} {inv : Program → Prop} (steady : p.Steady)
    (holds : inv p)
    (steps : p.tree.isWithin id p.root = true →
      Surely p step fun changed q => inv q ∧ p.Lightens W changed q) :
    Surely p (SimplifyM.ifAttached id step) fun changed q => inv q ∧ p.Lightens W changed q := by
  refine .program ?_
  split
  · rename_i attached
    rw [isAttached_eq steady.linked steady.isTop.top] at attached
    exact steps attached
  · exact .pure steady ⟨holds, .refl p⟩

/-- Steps that lighten a program do so wherever they are made. -/
theorem visit {test : Program → NodeId → Bool} {step : NodeId → SimplifyM Bool}
    (inv : Program → Prop) (steady : p.Steady) (holds : inv p)
    (steps : ∀ id q, q.Steady → p.Leads q → inv q → test p id = true →
      q.tree.isWithin id q.root = true →
      Surely q (step id) fun changed r => inv r ∧ q.Lightens W changed r) :
    Surely p (SimplifyM.visit test step) fun changed q => inv q ∧ p.Lightens W changed q := by
  refine .nodesWhere fun ids passed => ?_
  refine anyChange (fun _ => inv) steady holds fun id _ q member steady leads holds => ?_
  exact ifAttached steady holds
    fun attached => steps id q steady leads holds (passed id member) attached

end SimplifyM.Surely

end Unravel
