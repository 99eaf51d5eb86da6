import Mathlib.Data.List.Flatten
import Unravel.Proofs.Tree.Edit
import Unravel.Proofs.Tree.Linked

/-!
The order of the source is strict (`Tree.not_precedes_self`, `Tree.precedes_trans`). It is decided
where two paths part, so that what comes before a node comes before what the node holds
(`Tree.Linked.precedes_child`).

The order of the source in different trees, and of any two nodes in one. Of two nodes of a tree one
lies in the other or comes before it (`Tree.Linked.precedes_total`). Where children that are kept
stay in front of each other, the nodes below come in the same order (`Tree.precedes_eq_of_kept`),
and so do the nodes of a part that stands elsewhere (`Tree.Transplanted`).
-/

namespace Unravel.Tree

variable {t : Tree} {a b c fork child parent : NodeId} {as bs cs : List NodeId}

/-! ### Where two paths part -/

theorem forksBefore_of_ne (different : a ≠ b) : t.forksBefore fork (a :: as) (b :: bs) = true ↔
    ∃ i j, (t.node fork).children.idxOf? a = some i ∧ (t.node fork).children.idxOf? b = some j ∧
      i < j := by
  rw [forksBefore, if_neg different]
  split
  · rename_i i j first second
    simp [first, second]
  · rename_i missing
    simp only [Bool.false_eq_true, false_iff]
    rintro ⟨i, j, first, second, -⟩
    exact missing i j first second

@[simp] theorem forksBefore_cons_self :
    t.forksBefore fork (a :: as) (a :: bs) = t.forksBefore a as bs := by
  rw [forksBefore, if_pos rfl]

@[simp] theorem forksBefore_nil_left : t.forksBefore fork [] bs = false := by
  cases bs <;> rfl

@[simp] theorem forksBefore_nil_right : t.forksBefore fork as [] = false := by
  cases as <;> rfl

theorem forksBefore_append_left : t.forksBefore fork (as ++ bs) as = false := by
  induction as generalizing fork with
  | nil => exact forksBefore_nil_right
  | cons a as induction => rw [List.cons_append, forksBefore_cons_self, induction]

theorem forksBefore_append_right : t.forksBefore fork as (as ++ bs) = false := by
  induction as generalizing fork with
  | nil => exact forksBefore_nil_left
  | cons a as induction => rw [List.cons_append, forksBefore_cons_self, induction]

theorem forksBefore_trans (first : t.forksBefore fork as bs = true)
    (second : t.forksBefore fork bs cs = true) :
    t.forksBefore fork as cs = true := by
  induction as generalizing fork bs cs with
  | nil => simp at first
  | cons a as induction =>
    cases bs with
    | nil => simp at first
    | cons b bs =>
      cases cs with
      | nil => simp at second
      | cons c cs =>
        by_cases firstSame : a = b
        · subst firstSame
          by_cases secondSame : a = c
          · subst secondSame
            rw [forksBefore_cons_self] at *
            exact induction first second
          · rwa [forksBefore_of_ne secondSame] at *
        · obtain ⟨i, j, isFirst, isSecond, less⟩ := (forksBefore_of_ne firstSame).mp first
          by_cases secondSame : b = c
          · subst secondSame
            exact (forksBefore_of_ne firstSame).mpr ⟨i, j, isFirst, isSecond, less⟩
          · obtain ⟨j', k, isSecond', isThird, further⟩ := (forksBefore_of_ne secondSame).mp second
            rw [isSecond, Option.some.injEq] at isSecond'
            subst isSecond'
            have different : a ≠ c := by
              rintro rfl
              rw [isFirst, Option.some.injEq] at isThird
              omega
            exact (forksBefore_of_ne different).mpr ⟨i, k, isFirst, isThird, by omega⟩

theorem forksBefore_append (apart : ¬bs <+: as) :
    t.forksBefore fork as (bs ++ cs) = t.forksBefore fork as bs := by
  induction bs generalizing fork as with
  | nil => exact absurd (List.nil_prefix) apart
  | cons b bs induction =>
    cases as with
    | nil => rw [List.cons_append, forksBefore_nil_left, forksBefore_nil_left]
    | cons a as =>
      by_cases same : a = b
      · subst same
        rw [List.cons_append, forksBefore_cons_self, forksBefore_cons_self]
        exact induction fun isPrefix => apart (List.cons_prefix_cons.mpr ⟨rfl, isPrefix⟩)
      · rw [List.cons_append, Bool.eq_iff_iff, forksBefore_of_ne same, forksBefore_of_ne same]

/-! ### Paths -/

def pathBefore (t : Tree) : List NodeId → List NodeId → Bool
  | r :: as, s :: bs => r = s && t.forksBefore r as bs
  | _, _ => false

theorem path_ne_nil (t : Tree) (id : NodeId) : t.path id ≠ [] := by simp [path]

theorem mem_path : a ∈ t.path b ↔ t.isWithin b a = true := by
  rw [path, List.mem_append, List.mem_reverse, List.mem_singleton, isWithin_iff, or_comm,
    eq_comm (a := a)]

theorem pathBefore_append_left : t.pathBefore (as ++ bs) as = false := by
  cases as with
  | nil => cases bs <;> rfl
  | cons a as => simp [pathBefore, forksBefore_append_left]

theorem pathBefore_append_right : t.pathBefore as (as ++ bs) = false := by
  cases as with
  | nil => cases bs <;> rfl
  | cons a as => simp [pathBefore, forksBefore_append_right]

theorem pathBefore_trans (first : t.pathBefore as bs = true) (second : t.pathBefore bs cs = true) :
    t.pathBefore as cs = true := by
  cases as with
  | nil => cases first
  | cons r as =>
    cases bs with
    | nil => cases first
    | cons s bs =>
      cases cs with
      | nil => cases second
      | cons u cs =>
        simp only [pathBefore, Bool.and_eq_true, decide_eq_true_eq] at *
        obtain ⟨rfl, first⟩ := first
        obtain ⟨rfl, second⟩ := second
        exact ⟨rfl, forksBefore_trans first second⟩

theorem pathBefore_append (apart : ¬bs <+: as) (inhabited : bs ≠ []) :
    t.pathBefore as (bs ++ cs) = t.pathBefore as bs := by
  cases bs with
  | nil => exact absurd rfl inhabited
  | cons s bs =>
    cases as with
    | nil => rfl
    | cons r as =>
      rw [List.cons_append, pathBefore, pathBefore]
      by_cases same : r = s
      · subst same
        rw [forksBefore_append fun isPrefix => apart (List.cons_prefix_cons.mpr ⟨rfl, isPrefix⟩)]
      · simp [same]

namespace Linked

variable (linked : t.Linked)

include linked

theorem path_of_parent (held : t.parent? child = some parent) :
    t.path child = t.path parent ++ [child] := by
  simp [path, linked.ancestors_of_parent held]

theorem path_prefix_iff : t.path a <+: t.path b ↔ t.isWithin b a = true := by
  constructor
  · intro isPrefix
    have member : a ∈ t.path b := isPrefix.subset (by simp [path])
    rw [path, List.mem_append, List.mem_reverse, List.mem_singleton] at member
    exact isWithin_iff.mpr (member.symm.imp_left Eq.symm)
  · intro within
    induction b using linked.induction with
    | step b induction =>
      by_cases same : b = a
      · exact same ▸ List.prefix_rfl
      · obtain ⟨parent, held, above⟩ := linked.exists_parent_of_isWithin within same
        rw [linked.path_of_parent held]
        exact (induction parent held above).trans (List.prefix_append ..)

theorem precedes_eq (a b : NodeId) : t.precedes a b = t.pathBefore (t.path a) (t.path b) := by
  have split : t.precedes a b =
      (!t.isWithin b a && !t.isWithin a b && t.pathBefore (t.path a) (t.path b)) := by
    rw [precedes]
    rfl
  rw [split]
  cases before : t.pathBefore (t.path a) (t.path b) with
  | false => rw [Bool.and_false]
  | true =>
    have notBelow : t.isWithin b a = false := by
      rw [Bool.eq_false_iff, ne_eq, ← linked.path_prefix_iff]
      rintro ⟨rest, same⟩
      rw [← same, pathBefore_append_right] at before
      cases before
    have notAbove : t.isWithin a b = false := by
      rw [Bool.eq_false_iff, ne_eq, ← linked.path_prefix_iff]
      rintro ⟨rest, same⟩
      rw [← same, pathBefore_append_left] at before
      cases before
    rw [notBelow, notAbove]
    rfl

theorem precedes_trans (first : t.precedes a b = true) (second : t.precedes b c = true) :
    t.precedes a c = true := by
  rw [linked.precedes_eq] at *
  exact pathBefore_trans first second

theorem precedes_child (held : t.parent? child = some parent)
    (outside : t.isWithin a parent = false) :
    t.precedes a child = t.precedes a parent := by
  rw [linked.precedes_eq, linked.precedes_eq, linked.path_of_parent held]
  refine pathBefore_append (fun isPrefix => ?_) (t.path_ne_nil parent)
  rw [linked.path_prefix_iff.mp isPrefix] at outside
  cases outside

end Linked

theorem not_isWithin_of_precedes (before : t.precedes a b = true) :
    t.isWithin b a = false ∧ t.isWithin a b = false := by
  rw [precedes] at before
  simp_all

theorem not_precedes_self (t : Tree) (id : NodeId) : t.precedes id id = false := by
  rw [Bool.eq_false_iff]
  intro before
  have apart := (not_isWithin_of_precedes before).1
  rw [isWithin_self] at apart
  cases apart

variable {after : Tree} {root : NodeId} {own : NodeId → Prop} {f : NodeId → NodeId}

/-! ### Children in front of others -/

def Ahead (t : Tree) (fork a b : NodeId) : Prop :=
  ∃ i j, (t.node fork).children.idxOf? a = some i ∧ (t.node fork).children.idxOf? b = some j ∧ i < j

theorem exists_idxOf?_iff {l : List NodeId} (distinct : l.Nodup) (different : a ≠ b) :
    (∃ i j, l.idxOf? a = some i ∧ l.idxOf? b = some j ∧ i < j) ↔ [a, b].Sublist l := by
  induction l with
  | nil => simp
  | cons head rest induction =>
    obtain ⟨notMember, distinct⟩ := List.nodup_cons.mp distinct
    simp only [List.idxOf?_cons]
    by_cases isFirst : head = a
    · subst isFirst
      have there (member : b ∈ rest) : ∃ j, rest.idxOf? b = some j := by
        cases found : rest.idxOf? b with
        | none => exact absurd member (List.idxOf?_eq_none_iff.mp found)
        | some j => exact ⟨j, rfl⟩
      simp only [List.cons_sublist_cons, List.singleton_sublist, beq_self_eq_true, if_true]
      rw [if_neg (by simpa using different)]
      constructor
      · rintro ⟨i, j, -, found, -⟩
        obtain ⟨j, found, -⟩ := Option.map_eq_some_iff.mp found
        by_contra missing
        rw [List.idxOf?_eq_none_iff.mpr missing] at found
        cases found
      · intro member
        obtain ⟨j, found⟩ := there member
        exact ⟨0, j + 1, rfl, by rw [found]; rfl, Nat.succ_pos j⟩
    · rw [if_neg (by simpa using isFirst), List.sublist_cons_iff]
      have notFirst : ¬∃ r, [a, b] = head :: r ∧ r.Sublist rest := by
        rintro ⟨r, same, -⟩
        exact isFirst (List.cons.inj same).1.symm
      rw [or_iff_left notFirst, ← induction distinct]
      by_cases isSecond : head = b
      · subst isSecond
        rw [if_pos (beq_self_eq_true _)]
        constructor
        · rintro ⟨i, j, -, same, less⟩
          cases same
          omega
        · rintro ⟨i, j, -, found, -⟩
          rw [List.idxOf?_eq_none_iff.mpr notMember] at found
          cases found
      · rw [if_neg (by simpa using isSecond)]
        constructor
        · rintro ⟨_, _, isFound, isFoundToo, less⟩
          obtain ⟨i, first, rfl⟩ := Option.map_eq_some_iff.mp isFound
          obtain ⟨j, second, rfl⟩ := Option.map_eq_some_iff.mp isFoundToo
          exact ⟨i, j, first, second, by omega⟩
        · rintro ⟨i, j, first, second, less⟩
          exact ⟨i + 1, j + 1, by rw [first]; rfl, by rw [second]; rfl, by omega⟩

theorem Linked.ahead_iff (linked : t.Linked) (different : a ≠ b) :
    t.Ahead fork a b ↔ [a, b].Sublist (t.node fork).children :=
  exists_idxOf?_iff (linked.nodup_children fork) different

theorem Ahead.ne (ahead : t.Ahead fork a b) : a ≠ b := by
  rintro rfl
  obtain ⟨i, j, first, second, less⟩ := ahead
  rw [first, Option.some.injEq] at second
  omega

theorem Ahead.parent? (ahead : t.Ahead fork a b) (linked : t.Linked) : t.parent? a = some fork := by
  obtain ⟨i, -, first, -⟩ := ahead
  rw [← linked.mem_children, ← List.isSome_idxOf?, first]
  rfl

theorem sublist_total {l : List NodeId} (first : a ∈ l) (second : b ∈ l) (different : a ≠ b) :
    [a, b].Sublist l ∨ [b, a].Sublist l := by
  induction l with
  | nil => cases first
  | cons head rest induction =>
    rcases List.mem_cons.mp first with rfl | firstLater
    · rcases List.mem_cons.mp second with rfl | secondLater
      · exact absurd rfl different
      · exact .inl (by simpa using secondLater)
    · rcases List.mem_cons.mp second with rfl | secondLater
      · exact .inr (by simpa using firstLater)
      · exact (induction firstLater secondLater).imp (·.cons head) (·.cons head)

theorem not_sublist_swap {l : List NodeId} (distinct : l.Nodup) (inFront : [a, b].Sublist l) :
    ¬[b, a].Sublist l := by
  intro behind
  have different : a ≠ b := by
    have := inFront.nodup distinct
    simpa using this
  obtain ⟨i, j, first, second, less⟩ := (exists_idxOf?_iff distinct different).mpr inFront
  obtain ⟨j', i', second', first', more⟩ := (exists_idxOf?_iff distinct different.symm).mpr behind
  rw [first, Option.some.injEq] at first'
  rw [second, Option.some.injEq] at second'
  omega

theorem pair_sublist_iff {l m : List NodeId} (distinct : l.Nodup) (different : a ≠ b)
    (kept : [a, b].Sublist m → [a, b].Sublist l) (keptToo : [b, a].Sublist m → [b, a].Sublist l)
    (stays : a ∈ l → a ∈ m) (staysToo : b ∈ l → b ∈ m) : [a, b].Sublist m ↔ [a, b].Sublist l := by
  refine ⟨kept, fun inFront => ?_⟩
  refine (sublist_total (stays (inFront.subset (by simp))) (staysToo (inFront.subset (by simp)))
    different).resolve_right fun behind => ?_
  exact not_sublist_swap distinct inFront (keptToo behind)

/-! ### Paths that part alike -/

theorem forksBefore_append_append :
    t.forksBefore fork (cs ++ [c] ++ as) (cs ++ [c] ++ bs) = t.forksBefore c as bs := by
  induction cs generalizing fork with
  | nil => exact forksBefore_cons_self
  | cons head cs induction =>
    rw [List.cons_append, List.cons_append, List.cons_append, forksBefore_cons_self]
    exact induction

theorem pathBefore_path_append :
    t.pathBefore (t.path c ++ as) (t.path c ++ bs) = t.forksBefore c as bs := by
  rw [path]
  cases (t.ancestors c).reverse with
  | nil => simp [pathBefore]
  | cons r rest =>
    simp only [List.cons_append, pathBefore, decide_true, Bool.true_and]
    exact forksBefore_append_append

theorem forksBefore_eq (injective : ∀ {a b}, own a → own b → f a = f b → a = b)
    (same : ∀ {fork a b}, own fork → own a → own b → a ≠ b →
      (after.Ahead (f fork) (f a) (f b) ↔ t.Ahead fork a b))
    (isFork : own fork) (first : ∀ a ∈ as, own a) (second : ∀ b ∈ bs, own b) :
    after.forksBefore (f fork) (as.map f) (bs.map f) = t.forksBefore fork as bs := by
  induction as generalizing fork bs with
  | nil => rw [List.map_nil, forksBefore_nil_left, forksBefore_nil_left]
  | cons a as induction =>
    cases bs with
    | nil => rw [List.map_nil, forksBefore_nil_right, forksBefore_nil_right]
    | cons b bs =>
      rw [List.forall_mem_cons] at first second
      rw [List.map_cons, List.map_cons]
      by_cases equal : a = b
      · subst equal
        rw [forksBefore_cons_self, forksBefore_cons_self]
        exact induction first.1 first.2 second.2
      · have apart : f a ≠ f b := fun mapped => equal (injective first.1 second.1 mapped)
        rw [Bool.eq_iff_iff, forksBefore_of_ne apart, forksBefore_of_ne equal]
        exact same isFork first.1 second.1 equal

theorem ahead_iff_of_map {id : NodeId}
    (children : (after.node (f id)).children = (t.node id).children.map f)
    (injective : ∀ {x y}, x ∈ (t.node id).children ∨ x = a ∨ x = b →
      y ∈ (t.node id).children ∨ y = a ∨ y = b →
      f x = f y → x = y) : after.Ahead (f id) (f a) (f b) ↔ t.Ahead id a b := by
  have position {child : NodeId} (is : child = a ∨ child = b) :
      (after.node (f id)).children.idxOf? (f child) = (t.node id).children.idxOf? child := by
    rw [children]
    generalize (t.node id).children = siblings at injective
    induction siblings with
    | nil => rfl
    | cons head rest induction =>
      rw [List.map_cons, List.idxOf?_cons, List.idxOf?_cons,
        induction fun {x y} first second => injective (first.imp_left (List.mem_cons_of_mem _))
          (second.imp_left (List.mem_cons_of_mem _))]
      by_cases equal : head = child
      · rw [equal, if_pos (beq_self_eq_true _), if_pos (beq_self_eq_true _)]
      · have apart : f head ≠ f child := fun mapped =>
          equal (injective (.inl (List.mem_cons_self ..)) (.inr is) mapped)
        rw [if_neg (by simpa using apart), if_neg (by simpa using equal)]
  rw [Ahead, Ahead, position (.inl rfl), position (.inr rfl)]

theorem precedes_eq_of_kept (own : NodeId → Prop) (linked : t.Linked) (afterLinked : after.Linked)
    (first : after.path a = t.path a) (second : after.path b = t.path b)
    (own_of_mem : ∀ id, id ∈ t.path a ∨ id ∈ t.path b → own id)
    (order : ∀ {id x y}, own id → own x → own y → [x, y].Sublist (after.node id).children →
      [x, y].Sublist (t.node id).children)
    (stays : ∀ {id child}, own id → own child → child ∈ (t.node id).children →
      child ∈ (after.node id).children) :
    after.precedes a b = t.precedes a b := by
  rw [afterLinked.precedes_eq, linked.precedes_eq, first, second]
  cases isFirst : t.path a with
  | nil => rfl
  | cons r as =>
    cases isSecond : t.path b with
    | nil => rfl
    | cons s bs =>
      rw [isFirst, isSecond] at own_of_mem
      have same := @forksBefore_eq t r as bs after own id
        (fun _ _ equal => equal) (fun {fork a b} isFork first second different => ?_)
        (own_of_mem r (.inl (List.mem_cons_self ..)))
        (fun a member => own_of_mem a (.inl (List.mem_cons_of_mem _ member)))
        fun b member => own_of_mem b (.inr (List.mem_cons_of_mem _ member))
      · rw [List.map_id, List.map_id] at same
        rw [pathBefore, pathBefore, show after.forksBefore r as bs = _ from same]
      · change after.Ahead fork a b ↔ t.Ahead fork a b
        rw [afterLinked.ahead_iff different, linked.ahead_iff different]
        exact pair_sublist_iff (linked.nodup_children fork) different (order isFork first second)
          (order isFork second first) (stays isFork first) (stays isFork second)

/-! ### Nodes beside each other -/

namespace Linked

variable {x y inner outer : NodeId} (linked : t.Linked)

include linked

theorem exists_path (within : t.isWithin a root = true) :
    ∃ inner, t.path a = t.path root ++ inner := by
  obtain ⟨inner, isPath⟩ := linked.path_prefix_iff.mpr within
  exact ⟨inner, isPath.symm⟩

theorem precedes_iff_ahead (firstHeld : t.parent? x = some parent)
    (secondHeld : t.parent? y = some parent) (different : x ≠ y) (first : t.isWithin a x = true)
    (second : t.isWithin b y = true) :
    t.precedes a b = true ↔ t.Ahead parent x y := by
  obtain ⟨as, isFirst⟩ := linked.exists_path first
  obtain ⟨bs, isSecond⟩ := linked.exists_path second
  rw [linked.precedes_eq, isFirst, isSecond, linked.path_of_parent firstHeld,
    linked.path_of_parent secondHeld, List.append_assoc, List.append_assoc, pathBefore_path_append]
  exact forksBefore_of_ne different

theorem exists_siblings (allocated : t.Allocated root) (first : t.isWithin a root = true)
    (second : t.isWithin b root = true) (apart : t.isWithin a b = false)
    (apartToo : t.isWithin b a = false) :
    ∃ parent x y, t.parent? x = some parent ∧ t.parent? y = some parent ∧ x ≠ y ∧
      t.isWithin a x = true ∧
      t.isWithin b y = true := by
  induction root, allocated using linked.induction_children with
  | step root allocated induction =>
    have notFirst : a ≠ root := by
      rintro rfl
      rw [second] at apartToo
      cases apartToo
    have notSecond : b ≠ root := by
      rintro rfl
      rw [first] at apart
      cases apart
    obtain ⟨x, isChild, below⟩ := linked.exists_child first notFirst
    obtain ⟨y, isChildToo, belowToo⟩ := linked.exists_child second notSecond
    have held := linked.mem_children.mp isChild
    have heldToo := linked.mem_children.mp isChildToo
    by_cases same : x = y
    · subst same
      exact induction x held below belowToo
    · exact ⟨root, x, y, held, heldToo, same, below, belowToo⟩

theorem precedes_total (allocated : t.Allocated root) (first : t.isWithin a root = true)
    (second : t.isWithin b root = true) :
    t.precedes a b = true ∨ t.precedes b a = true ∨ t.isWithin a b = true ∨
      t.isWithin b a = true := by
  cases apart : t.isWithin a b with
  | true => exact .inr (.inr (.inl rfl))
  | false =>
    cases apartToo : t.isWithin b a with
    | true => exact .inr (.inr (.inr rfl))
    | false =>
      obtain ⟨parent, x, y, held, heldToo, different, below, belowToo⟩ :=
        linked.exists_siblings allocated first second apart apartToo
      rw [linked.precedes_iff_ahead held heldToo different below belowToo,
        linked.precedes_iff_ahead heldToo held different.symm belowToo below,
        linked.ahead_iff different, linked.ahead_iff different.symm]
      rcases sublist_total (linked.mem_children.mpr held) (linked.mem_children.mpr heldToo)
        different with inFront | behind
      · exact .inl inFront
      · exact .inr (.inl behind)

theorem not_precedes_of_precedes (before : t.precedes a b = true) : t.precedes b a = false := by
  rw [Bool.eq_false_iff]
  intro behind
  have circle := linked.precedes_trans before behind
  rw [not_precedes_self] at circle
  cases circle

theorem precedes_of_isWithin (before : t.precedes a outer = true)
    (within : t.isWithin b outer = true) :
    t.precedes a b = true := by
  induction b using linked.induction with
  | step b induction =>
    by_cases same : b = outer
    · exact same ▸ before
    · obtain ⟨parent, held, above⟩ := linked.exists_parent_of_isWithin within same
      have further := induction parent held above
      rw [linked.precedes_child held (not_isWithin_of_precedes further).2]
      exact further

theorem isWithin_precedes (allocated : t.Allocated root) (attached : t.isWithin outer root = true)
    (attachedToo : t.isWithin b root = true) (before : t.precedes outer b = true)
    (within : t.isWithin a outer = true) : t.precedes a b = true := by
  obtain ⟨apartToo, apart⟩ := not_isWithin_of_precedes before
  obtain ⟨parent, x, y, held, heldToo, different, below, belowToo⟩ :=
    linked.exists_siblings allocated attached attachedToo apart apartToo
  rw [linked.precedes_iff_ahead held heldToo different below belowToo] at before
  rwa [linked.precedes_iff_ahead held heldToo different (linked.isWithin_trans within below)
    belowToo]

theorem exists_between {first holder list last : NodeId} (allocated : t.Allocated root)
    (attached : t.isWithin list root = true) (attachedToo : t.isWithin a root = true)
    (held : t.parent? first = some holder) (above : t.parent? holder = some list)
    (aboveLast : t.parent? last = some list) (different : holder ≠ last)
    (after : t.precedes first a = true)
    (before : t.precedes a last = true ∨ t.isWithin a last = true) :
    (∃ other, t.parent? other = some holder ∧ t.Ahead holder first other ∧
      t.isWithin a other = true) ∨
      ∃ other, t.parent? other = some list ∧ t.Ahead list holder other ∧ t.isWithin a other = true ∧
        (other = last ∨ t.Ahead list other last) := by
  have firstBelow := linked.isWithin_of_parent held
  have firstInside := linked.isWithin_trans firstBelow (linked.isWithin_of_parent above)
  have notAround := (not_isWithin_of_precedes after).2
  rcases before with before | within
  · have inside : t.isWithin a list = true := by
      rcases linked.precedes_total allocated attachedToo attached with
        inFront | behind | inside | around
      · have turned := linked.precedes_of_isWithin inFront firstInside
        rw [linked.not_precedes_of_precedes after] at turned
        cases turned
      · have turned := linked.isWithin_precedes allocated attached attachedToo behind
          (linked.isWithin_of_parent aboveLast)
        rw [linked.not_precedes_of_precedes before] at turned
        cases turned
      · exact inside
      · rw [linked.isWithin_trans firstInside around] at notAround
        cases notAround
    obtain ⟨other, isChild, below⟩ := linked.exists_child inside fun same => by
      rw [same, firstInside] at notAround
      cases notAround
    have heldOther := linked.mem_children.mp isChild
    by_cases isHolder : other = holder
    · subst isHolder
      obtain ⟨other, isChild, within⟩ := linked.exists_child below fun same => by
        rw [same, firstBelow] at notAround
        cases notAround
      have heldOther := linked.mem_children.mp isChild
      refine .inl ⟨other, heldOther,
        (linked.precedes_iff_ahead held heldOther ?_ isWithin_self within).mp after, within⟩
      rintro rfl
      rw [(not_isWithin_of_precedes after).1] at within
      cases within
    · refine .inr ⟨other, heldOther,
        (linked.precedes_iff_ahead above heldOther (Ne.symm isHolder) firstBelow below).mp after,
        below, ?_⟩
      by_cases isLast : other = last
      · exact .inl isLast
      · exact .inr ((linked.precedes_iff_ahead heldOther aboveLast isLast below isWithin_self).mp
          before)
  · exact .inr ⟨last, aboveLast,
      (linked.precedes_iff_ahead above aboveLast different firstBelow within).mp after,
      within, .inl rfl⟩

end Linked

/-! ### The walk through a tree -/

theorem sublist_flatMap {l : List NodeId} {f : NodeId → List NodeId} (member : a ∈ l) :
    (f a).Sublist (l.flatMap f) := by
  simpa using (List.singleton_sublist.mpr member).flatMap f

theorem pair_sublist_flatMap {l : List NodeId} {f : NodeId → List NodeId} {x y : NodeId}
    (inFront : [x, y].Sublist l) (first : a ∈ f x) (second : b ∈ f y) :
    [a, b].Sublist (l.flatMap f) := by
  have pair : [a, b].Sublist ([x, y].flatMap f) := by
    simpa using (List.singleton_sublist.mpr first).append (List.singleton_sublist.mpr second)
  exact pair.trans (inFront.flatMap f)

namespace Linked

variable (linked : t.Linked)

include linked

theorem sublist_of_isWithin (allocated : t.Allocated root) (first : t.isWithin a root = true)
    (within : t.isWithin b a = true) (different : b ≠ a) : [a, b].Sublist (t.descendants root) := by
  induction root, allocated using linked.induction_children with
  | step root allocated induction =>
    rw [linked.descendants_eq allocated]
    by_cases isRoot : a = root
    · subst isRoot
      obtain ⟨child, isChild, below⟩ := linked.exists_child within different
      refine List.cons_sublist_cons.mpr
        (List.singleton_sublist.mpr (List.mem_flatMap_of_mem isChild ?_))
      exact (linked.mem_descendants_iff (allocated_of_parent? (linked.mem_children.mp isChild))).mpr
        below
    · obtain ⟨child, isChild, below⟩ := linked.exists_child first isRoot
      exact ((induction child (linked.mem_children.mp isChild) below).trans
        (sublist_flatMap isChild)).cons root

theorem sublist_of_precedes (allocated : t.Allocated root) (first : t.isWithin a root = true)
    (second : t.isWithin b root = true) (before : t.precedes a b = true) :
    [a, b].Sublist (t.descendants root) := by
  obtain ⟨apartToo, apart⟩ := not_isWithin_of_precedes before
  induction root, allocated using linked.induction_children with
  | step root allocated induction =>
    rw [linked.descendants_eq allocated]
    refine List.Sublist.cons root ?_
    obtain ⟨x, isChild, below⟩ := linked.exists_child first fun same => by
      rw [same, second] at apartToo
      cases apartToo
    obtain ⟨y, isChildToo, belowToo⟩ := linked.exists_child second fun same => by
      rw [same, first] at apart
      cases apart
    have held := linked.mem_children.mp isChild
    have heldToo := linked.mem_children.mp isChildToo
    by_cases same : x = y
    · subst same
      exact (induction x held below belowToo).trans (sublist_flatMap isChild)
    · rw [linked.precedes_iff_ahead held heldToo same below belowToo, linked.ahead_iff same]
        at before
      exact pair_sublist_flatMap before
        ((linked.mem_descendants_iff (allocated_of_parent? held)).mpr below)
        ((linked.mem_descendants_iff (allocated_of_parent? heldToo)).mpr belowToo)

theorem precedes_or_isWithin (allocated : t.Allocated root)
    (inFront : [a, b].Sublist (t.descendants root)) :
    t.precedes a b = true ∨ t.isWithin b a = true := by
  have distinct := linked.nodup_descendants allocated
  have first : t.isWithin a root = true :=
    (linked.mem_descendants_iff allocated).mp (inFront.subset (by simp))
  have second : t.isWithin b root = true :=
    (linked.mem_descendants_iff allocated).mp (inFront.subset (by simp))
  have different : a ≠ b := by
    have := inFront.nodup distinct
    simpa using this
  rcases linked.precedes_total allocated first second with before | behind | around | within
  · exact .inl before
  · exact absurd (linked.sublist_of_precedes allocated second first behind)
      (not_sublist_swap distinct inFront)
  · exact absurd (linked.sublist_of_isWithin allocated second around different)
      (not_sublist_swap distinct inFront)
  · exact .inr within

end Linked

/-! ### Parts that stand elsewhere -/

/-- A part of a tree stands in another tree as well, each node as its image. -/
structure Transplanted (t after : Tree) (root : NodeId) (f : NodeId → NodeId) : Prop where
  node : ∀ {id}, t.isWithin id root = true → after.node (f id) = (t.node id).map f
  injective : ∀ {a b}, t.isWithin a root = true → t.isWithin b root = true → f a = f b → a = b

namespace Transplanted

variable (moved : t.Transplanted after root f) (linked : t.Linked) (afterLinked : after.Linked)

include moved linked afterLinked

theorem parent? (within : t.isWithin child root = true) (different : child ≠ root)
    (held : t.parent? child = some parent) : after.parent? (f child) = some (f parent) := by
  rw [linked.isWithin_parent held different] at within
  rw [← afterLinked.mem_children, moved.node within, Node.children_map]
  exact List.mem_map_of_mem (linked.mem_children.mpr held)

theorem exists_path (within : t.isWithin a root = true) : ∃ inner, t.path a = t.path root ++ inner ∧
    after.path (f a) = after.path (f root) ++ inner.map f ∧
    ∀ id ∈ inner, t.isWithin id root = true := by
  induction a using linked.induction with
  | step a induction =>
    by_cases same : a = root
    · exact ⟨[], by simp [same]⟩
    · obtain ⟨parent, held, above⟩ := linked.exists_parent_of_isWithin within same
      obtain ⟨inner, isPath, isPathAfter, inside⟩ := induction parent held above
      refine ⟨inner ++ [a], ?_, ?_, ?_⟩
      · rw [linked.path_of_parent held, isPath, List.append_assoc]
      · rw [afterLinked.path_of_parent (moved.parent? linked afterLinked within same held),
          isPathAfter]
        simp
      · rw [List.forall_mem_append, List.forall_mem_singleton]
        exact ⟨inside, within⟩

theorem isWithin (within : t.isWithin a root = true) : after.isWithin (f a) (f root) = true := by
  obtain ⟨inner, -, isPath, -⟩ := moved.exists_path linked afterLinked within
  rw [← afterLinked.path_prefix_iff, isPath]
  exact List.prefix_append ..

theorem precedes_eq (first : t.isWithin a root = true) (second : t.isWithin b root = true) :
    after.precedes (f a) (f b) = t.precedes a b := by
  obtain ⟨as, isFirst, isFirstAfter, insideFirst⟩ := moved.exists_path linked afterLinked first
  obtain ⟨bs, isSecond, isSecondAfter, insideSecond⟩ := moved.exists_path linked afterLinked second
  have below {id child : NodeId} (within : t.isWithin id root = true)
      (member : child ∈ (t.node id).children) :
      t.isWithin child root = true :=
    linked.isWithin_trans (linked.isWithin_of_parent (linked.mem_children.mp member)) within
  have same :=
    @forksBefore_eq t root as bs after _ f (fun first second => moved.injective first second)
      (fun {fork a b} isFork first second _ => ahead_iff_of_map
        (by rw [moved.node isFork, Node.children_map]) fun {x y} xs ys => ?_)
      isWithin_self insideFirst insideSecond
  · rw [afterLinked.precedes_eq, linked.precedes_eq, isFirst, isSecond, isFirstAfter, isSecondAfter,
      pathBefore_path_append, pathBefore_path_append, same]
  · have inside {z : NodeId} (is : z ∈ (t.node fork).children ∨ z = a ∨ z = b) :
        t.isWithin z root = true := by
      rcases is with member | rfl | rfl
      · exact below isFork member
      · exact first
      · exact second
    exact moved.injective (inside xs) (inside ys)

end Transplanted

end Unravel.Tree
