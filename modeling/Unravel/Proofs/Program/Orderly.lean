import Unravel.Proofs.Program.Change
import Unravel.Proofs.Program.Meaning
import Unravel.Proofs.Scope.Sealed

/-!
Programs that come from another one by orderly changes (`Program.Orderly`). Such changes keep the
nodes of the program and everything new sorted (`Program.Neat`), let no jump out of a function
(`Program.Calm`) and, where names are to be stable, leave the nodes of before their meaning
(`Program.Spares`).
-/

namespace Unravel

namespace Tree

variable {t after : Tree} {root id : NodeId} {j : Jump}

/-- Jumps go out of the same nodes of a tree that is left alone. -/
theorem Unchanged.jumpsOut (unchanged : t.Unchanged after root) (linked : t.Linked)
    (attached : t.isWithin id root = true) (jumpsOut : t.JumpsOut j id) : after.JumpsOut j id := by
  induction jumpsOut with
  | here isJump => exact .here ((unchanged.node attached).symm ▸ isJump)
  | deeper member passes notFunction _ induction =>
    have below :=
      induction (linked.isWithin_trans (linked.isWithin_of_parent (linked.mem_children.mp member))
        attached)
    rw [← unchanged.node attached] at member passes notFunction
    exact .deeper member passes notFunction below

theorem not_jumpsOut_of_empty (isEmpty : t.node id = .empty) : ¬t.JumpsOut j id := by
  intro jumpsOut
  cases jumpsOut with
  | here isJump =>
    rw [isEmpty] at isJump
    cases isJump
  | deeper member =>
    rw [isEmpty] at member
    cases member

theorem Linked.confines_of_empty (linked : t.Linked) (isTop : t.IsTop root)
    (isEmpty : t.node id = .empty) :
    t.Confines root id := by
  intro d declared within
  have spelled := linked.spelled_of_mem_declared isTop declared
  by_cases same : d.identifier = id
  · rw [same, isEmpty] at spelled
    cases spelled
  · obtain ⟨child, member, -⟩ := linked.exists_child within same
    rw [isEmpty] at member
    cases member

end Tree

namespace Program

variable {o p q after : Program} {stable : Prop} {id outer target replacement placed old : NodeId}
  {new : Option NodeId} {t tree grown : Tree}

/-- The nodes of a program and everything that comes later. -/
def Owns (o : Program) (id : NodeId) : Prop := o.isAttached id = true ∨ ¬o.tree.Allocated id

/-- A store goes on from that of a program: the nodes of the program hang on nodes of the program
only, and with everything new they are sorted. -/
structure Tidy (o : Program) (t : Tree) : Prop where
  size : o.tree.size ≤ t.size
  hangs : ∀ {id parent}, o.isAttached id = true → t.parent? id = some parent →
    o.isAttached parent = true
  sorted : t.Sorted o.Owns

/-- A program that goes on from another one with its table kept. -/
structure Neat (o p : Program) : Prop where
  origin : o.Rooted
  keeps : ∃ known, p.Keeps known
  root : p.root = o.root
  tidy : o.Tidy p.tree

abbrev Calm (o p : Program) : Prop := p.tree.Calm o.Owns

/-- The nodes of the first program that a change leaves in the program were there before it and mean
the same declarations. -/
def Spares (o p q : Program) : Prop :=
  ∀ id, o.isAttached id = true → q.isAttached id = true →
    p.isAttached id = true ∧ q.lexicon.meaning? id = p.lexicon.meaning? id

/-- Of the nodes of the first program none that stays means something that a removal takes away. -/
def Unmissed (o p : Program) (target : NodeId) : Prop :=
  ∀ id d, o.isAttached id = true → p.tree.isWithin id p.root = true →
    p.tree.isWithin id (p.leaving target) = false → p.lexicon.meaning? id = some d →
      p.tree.isWithin d.identifier (p.leaving target) = false

/-- The nodes of a program stand where they may if all nodes of the store do. -/
theorem Rooted.sorted_of_isSorted (rooted : p.Rooted) (isSorted : p.tree.isSorted = true) :
    p.tree.Sorted fun id => p.isAttached id = true := by
  have linked := rooted.linked
  refine ⟨fun {id child} attached member => ⟨?_, ?_⟩⟩
  · rw [isAttached_eq linked rooted.isTop.top] at attached ⊢
    exact linked.isWithin_trans (linked.isWithin_of_parent (linked.mem_children.mp member)) attached
  · have isNode := List.mem_range.mpr (rooted.allocated_of_isAttached attached)
    exact List.all_eq_true.mp (List.all_eq_true.mp isSorted id.index isNode) child member

namespace Tidy

variable (tidy : o.Tidy t)

include tidy

theorem not_allocated (isNew : ¬t.Allocated id) : ¬o.tree.Allocated id :=
  fun isAllocated => isNew (Nat.lt_of_lt_of_le isAllocated tidy.size)

theorem isAttached_of_isWithin (linked : t.Linked) (attached : o.isAttached id = true)
    (within : t.isWithin id outer = true) : o.isAttached outer = true := by
  induction id using linked.induction with
  | step id induction =>
    by_cases same : id = outer
    · exact same ▸ attached
    · obtain ⟨parent, held, parentWithin⟩ := linked.exists_parent_of_isWithin within same
      exact induction parent held (tidy.hangs attached held) parentWithin

theorem grow (grows : t.Grows grown) (origin : o.Rooted) (sorted : grown.Sorted o.Owns) :
    o.Tidy grown where
  size := Nat.le_trans tidy.size grows.size
  hangs attached held := by
    have allocated : t.Allocated _ :=
      Nat.lt_of_lt_of_le (origin.allocated_of_isAttached attached) tidy.size
    rw [grows.parent? allocated] at held
    exact tidy.hangs attached held
  sorted := sorted

theorem edited (edited : t.Edited tree old new) (origin : o.Rooted)
    (suits : ∀ n, new = some n → ¬o.tree.Allocated n ∧ t.Suits old n) : o.Tidy tree where
  size := edited.size ▸ tidy.size
  hangs {id parent} attached held := by
    rw [edited.parent?] at held
    split at held
    · cases held
    · split at held
      · rename_i isNew
        exact absurd (origin.allocated_of_isAttached attached) (suits id isNew.symm).1
      · exact tidy.hangs attached held
  sorted := tidy.sorted.edited edited fun n isNew => ⟨.inr (suits n isNew).1, (suits n isNew).2⟩

end Tidy

namespace Neat

theorem start {known : NodeId → Bool} (keeps : p.Keeps known)
    (sorted : p.tree.Sorted fun id => p.isAttached id = true) : p.Neat p where
  origin := keeps.toRooted
  keeps := ⟨known, keeps⟩
  root := rfl
  tidy := by
    have linked := keeps.linked
    refine ⟨Nat.le_refl _, fun {id parent} attached held => ?_, ⟨fun {id child} isOwn member => ?_⟩⟩
    · rw [isAttached_eq linked keeps.isTop.top] at attached ⊢
      rwa [← linked.isWithin_parent held]
      rintro rfl
      rw [keeps.isTop.top] at held
      cases held
    · obtain ⟨isOwn, admitted⟩ := sorted.child (isOwn.resolve_right fun missing =>
        missing (Tree.allocated_of_mem_children member)) member
      exact ⟨.inl isOwn, admitted⟩

variable (neat : o.Neat p)

include neat

theorem rooted : p.Rooted := neat.keeps.choose_spec.toRooted

theorem owns_of_isWithin (attached : p.tree.isWithin id p.root = true) : o.Owns id := by
  refine neat.tidy.sorted.own_of_isWithin neat.rooted.linked (.inl ?_) attached
  rw [neat.root, isAttached, decide_eq_true rfl, Bool.true_or]

theorem owns_of_isAttached (attached : p.isAttached id = true) : o.Owns id := by
  rw [isAttached_eq neat.rooted.linked neat.rooted.isTop.top] at attached
  exact neat.owns_of_isWithin attached

theorem isAttached_eq_false (isNew : ¬o.tree.Allocated outer)
    (within : p.tree.isWithin id outer = true) :
    o.isAttached id = false := by
  rw [Bool.eq_false_iff]
  intro attached
  exact isNew (neat.origin.allocated_of_isAttached
    (neat.tidy.isAttached_of_isWithin neat.rooted.linked attached within))

theorem grow (grows : p.tree.Grows grown) (sorted : grown.Sorted o.Owns) :
    o.Neat { p with tree := grown } where
  origin := neat.origin
  keeps := neat.keeps.imp fun _ keeps => keeps.grow grows
  root := neat.root
  tidy := neat.tidy.grow grows neat.origin sorted

/--
What comes into the place of a node keeps a program neat, and calm if no more jumps go out of it. -/
theorem replace (allocated : p.tree.Allocated replacement) (isNew : ¬o.tree.Allocated replacement)
    (suits : p.tree.Suits target replacement)
    (done : p.replace target replacement = .ok (placed, after)) :
    o.Neat after ∧ (o.Calm p → (∀ j, p.tree.JumpsOut j replacement → p.tree.JumpsOut j target) →
      o.Calm after) := by
  have rooted := neat.rooted
  have linked := rooted.linked
  obtain ⟨known, keeps⟩ := neat.keeps
  have result := (keeps.of_replace allocated done).2
  obtain ⟨replaceable, isPlaced, -⟩ := replace_eq_ok_iff.mp done
  have attached := replaceable.attached
  rw [isAttached_eq linked rooted.isTop.top] at attached
  have edited := result.edited
  rcases unwrap_cases linked target replacement with
    same | ⟨inner, tree, same, isStatement, block, held, taken, possible⟩
  · rw [same] at edited isPlaced
    subst isPlaced
    refine ⟨⟨neat.origin, ⟨_, result.keeps⟩, result.root.trans neat.root,
      neat.tidy.edited edited neat.origin ?_⟩, fun calm stay => calm.edited edited ?_⟩
    · rintro n ⟨⟩
      exact ⟨isNew, suits⟩
    · rintro n ⟨⟩
      exact stay
  · rw [same] at edited isPlaced
    subst isPlaced
    have isChild : placed ∈ (p.tree.node replacement).children := linked.mem_children.mpr held
    have outer : o.Owns replacement := .inr isNew
    obtain ⟨-, admitted⟩ := neat.tidy.sorted.child outer isChild
    have innerNew : ¬o.tree.Allocated placed := by
      have apart := neat.isAttached_eq_false isNew (linked.isWithin_of_parent held)
      refine ((neat.tidy.sorted.child outer isChild).1).resolve_left ?_
      rw [apart]
      exact Bool.false_ne_true
    have innerTidy : o.Tidy tree := neat.tidy.edited taken neat.origin (by simp)
    have innerSuits : tree.Suits target placed := by
      rw [Tree.Suits, Node.isOperand_congr (taken.tag placed),
        Node.isStatement_congr (taken.tag placed), Node.isStatement_congr (taken.tag target)]
      rw [show p.tree.node replacement = _ from block] at admitted
      cases inner : p.tree.node placed <;>
        simp_all [Node.admits, Node.isSwitch, Node.isVariableDeclaration,
          Node.holdsStatements, Program.node]
    refine ⟨⟨neat.origin, ⟨_, result.keeps⟩, result.root.trans neat.root,
      innerTidy.edited edited neat.origin ?_⟩, fun calm stay => ?_⟩
    · rintro n ⟨⟩
      exact ⟨innerNew, innerSuits⟩
    · refine (calm.edited taken (by simp)).edited edited ?_
      rintro n ⟨⟩ j jumpsOut
      -- The jump goes out of the block and of the target, which the unwrapping leaves alone.
      have before :=
        stay j (.deeper isChild (by rw [show p.tree.node replacement = _ from block]; rfl)
          (by rw [show p.tree.node replacement = _ from block]; rfl)
          (taken.jumpsOut (by simp) jumpsOut))
      have unchanged := result.unwrapped.unchanged
      rw [same] at unchanged
      exact unchanged.jumpsOut linked attached before

theorem blank : o.Neat { p with tree := withEmpty p.tree } := by
  have linked := neat.rooted.linked
  have grows := (grows_withEmpty linked).1
  exact neat.grow grows
    (neat.tidy.sorted.alloc linked (by simp [Node.children]) (by simp [Node.children]))

theorem remove (done : p.remove target = .ok after) : o.Neat after ∧ (o.Calm p → o.Calm after) := by
  have linked := neat.rooted.linked
  obtain ⟨known, keeps⟩ := neat.keeps
  obtain ⟨-, removed⟩ := keeps.remove done
  obtain ⟨remade, afterKeeps⟩ := removed.keeps
  rcases removed.tree with ⟨edited, -⟩ | ⟨edited, -, isStatement⟩
  · exact ⟨⟨neat.origin, ⟨_, afterKeeps⟩, removed.root.trans neat.root,
      neat.tidy.edited edited neat.origin (by simp)⟩, fun calm => calm.edited edited (by simp)⟩
  · obtain ⟨grows, loose, isEmpty⟩ := grows_withEmpty linked
    have blank := neat.blank
    refine ⟨⟨neat.origin, ⟨_, afterKeeps⟩, removed.root.trans neat.root,
      blank.tidy.edited edited neat.origin ?_⟩, fun calm => ?_⟩
    · rintro n ⟨⟩
      exact ⟨neat.tidy.not_allocated loose.new, .inr ⟨isStatement, by rw [isEmpty]; rfl⟩⟩
    · have calmAfter : (withEmpty p.tree).Calm o.Owns :=
        calm.alloc linked (by simp [Node.children]) (by simp [Node.children])
      refine calmAfter.edited edited ?_
      rintro n ⟨⟩ j jumpsOut
      exact absurd jumpsOut (Tree.not_jumpsOut_of_empty isEmpty)

end Neat

/-! ### Meanings -/

namespace Spares

theorem refl : o.Spares p p := fun _ _ attached => ⟨attached, rfl⟩

theorem trans (first : o.Spares p q) (second : o.Spares q after) : o.Spares p after := by
  intro id isOld attached
  obtain ⟨between, later⟩ := second id isOld attached
  obtain ⟨before, earlier⟩ := first id isOld between
  exact ⟨before, later.trans earlier⟩

end Spares

theorem Rooted.spares_elsewhere (rooted : p.Rooted) (unchanged : p.tree.Unchanged grown p.root)
    (linked : grown.Linked) (size : p.tree.size ≤ grown.size) :
    o.Spares p { p with tree := grown } := by
  have top : grown.parent? p.root = none :=
    (unchanged.parent? Tree.isWithin_self).trans rooted.isTop.top
  intro id _ attached
  rw [isAttached_eq linked top] at attached
  rw [isAttached_eq rooted.linked rooted.isTop.top,
    ← unchanged.isWithin_root rooted.linked linked rooted.isTop.top]
  exact ⟨attached, congrArg (Lexicon.meaning? · id)
    (unchanged.lexicon_eq rooted.linked linked rooted.isTop
      (Nat.lt_of_lt_of_le rooted.isTop.allocated size))⟩

theorem Rooted.spares_grow (rooted : p.Rooted) (grows : p.tree.Grows grown) :
    o.Spares p { p with tree := grown } :=
  rooted.spares_elsewhere (grows.unchanged rooted.linked rooted.isTop) grows.linked grows.size

theorem Neat.spares_edited (neat : o.Neat p) (edited : p.tree.Edited q.tree old new)
    (possible : p.tree.Exchangeable old new) (attached : p.tree.isWithin old p.root = true)
    (root : q.root = p.root) (isNew : ∀ n, new = some n → ¬o.tree.Allocated n)
    (confines : ∀ n, new = some n → q.tree.Confines p.root n)
    (kept : ∀ id d, o.isAttached id = true → p.tree.isWithin id p.root = true →
      p.tree.isWithin id old = false →
      p.lexicon.meaning? id = some d → p.tree.isWithin d.identifier old = false) :
      o.Spares p q := by
  have linked := neat.rooted.linked
  have isTop := neat.rooted.isTop
  have afterLinked := edited.linked linked possible
  have notNew : new ≠ some p.root := fun same => isNew p.root same
    (neat.root ▸ neat.origin.isTop.allocated)
  have afterTop := edited.top_after linked possible isTop attached notNew
  intro id isOld isAttached
  have present : p.tree.isIncoming new id = false := by
    rw [Bool.eq_false_iff, ne_eq, Tree.isIncoming_iff]
    rintro ⟨n, same, within⟩
    rw [neat.isAttached_eq_false (isNew n same) within] at isOld
    cases isOld
  rw [isAttached_eq afterLinked (root ▸ afterTop.top), root,
    edited.isWithin_root_iff linked possible isTop.top attached notNew] at isAttached
  obtain ⟨before, outside⟩ := isAttached.resolve_right (by simp [present])
  refine ⟨by rw [isAttached_eq linked isTop.top, before], ?_⟩
  rw [lexicon, root]
  exact edited.meaning?_eq linked possible isTop attached notNew ⟨outside, present⟩ confines
    fun d means => kept id d isOld before outside means

theorem Steady.confines (steady : p.Steady) (sorted : p.tree.Sorted o.Owns) (isOwn : o.Owns id)
    (allocated : p.tree.Allocated id) (isOperand : (p.node id).isOperand = true)
    (free : ¬p.tree.Binds id) :
    p.tree.Confines p.root id := by
  refine (sorted.isSealed steady.linked isOwn allocated isOperand).confines steady.linked
    steady.isTop free ?_
  intro holder member
  have isDeclarator := steady.wellBound.declarator member
  rw [show (p.tree.node id).isDeclarator = false from Node.not_isDeclarator_of_isOperand isOperand]
    at isDeclarator
  cases isDeclarator

theorem Neat.spares_replace (neat : o.Neat p) (steady : p.Steady)
    (allocated : p.tree.Allocated replacement) (isNew : ¬o.tree.Allocated replacement)
    (free : ¬p.tree.Binds target) (targetOperand : (p.node target).isOperand = true)
    (isOperand : (p.node replacement).isOperand = true)
    (done : p.replace target replacement = .ok (placed, after)) : o.Spares p after := by
  have linked := steady.linked
  obtain ⟨afterSteady, leads⟩ :=
    steady.replace allocated free (Node.not_isDeclarator_of_isOperand targetOperand) done
  have afterNeat := (neat.replace allocated isNew (.inl isOperand) done).1
  have result := (Keeps.of_replace steady.sound allocated done).2
  obtain ⟨replaceable, isPlaced, -⟩ := replace_eq_ok_iff.mp done
  rcases unwrap_cases linked target replacement with same | ⟨_, _, -, isStatement, -⟩
  · rw [same] at isPlaced
    subst isPlaced
    have edited := result.edited
    have possible := result.possible
    have attached := result.attached
    rw [same] at edited possible attached
    refine neat.spares_edited edited possible attached result.root ?_ ?_
      fun id d isOld isAttached outside means => ?_
    · rintro n ⟨⟩
      exact isNew
    · rintro n ⟨⟩
      rw [← result.root]
      refine afterSteady.confines afterNeat.tidy.sorted (.inr isNew) (leads.allocated allocated) ?_
        fun binds => ?_
      · exact (Node.isOperand_congr (leads.tag allocated)).trans isOperand
      · -- Nothing held the replacement before.
        cases leads.binds allocated binds with
        | place _ held =>
          exact absurd (linked.parent?_of_mem_part held) (by simp [replaceable.detached])
        | nested _ held =>
          exact absurd (linked.parent?_of_mem_part held) (by simp [replaceable.detached])
    · exact (steady.confines neat.tidy.sorted (neat.owns_of_isWithin attached)
        (linked.allocated_of_isWithin attached steady.isTop.allocated) targetOperand
          free).not_isWithin linked steady.isTop outside means
  · rw [Node.not_isStatement_of_isOperand targetOperand] at isStatement
    cases isStatement

theorem Neat.spares_remove (neat : o.Neat p) (done : p.remove target = .ok after)
    (unmissed : o.Unmissed p target) : o.Spares p after := by
  have rooted := neat.rooted
  have linked := rooted.linked
  obtain ⟨known, keeps⟩ := neat.keeps
  obtain ⟨attached, removed⟩ := keeps.remove done
  have attached := linked.isWithin_root_of_above rooted.isTop attached
    (isWithin_leaving linked target)
  rcases removed.tree with ⟨edited, possible⟩ | ⟨edited, possible, -⟩
  · exact neat.spares_edited edited possible attached removed.root (by simp) (by simp) unmissed
  · obtain ⟨grows, loose, isEmpty⟩ := grows_withEmpty linked
    have blank := neat.blank
    have unchanged := grows.unchanged linked rooted.isTop
    have top := grows.isTop rooted.isTop.allocated rooted.isTop.top
    have sameLexicon := unchanged.lexicon_eq linked grows.linked rooted.isTop top.1
    have sameRoot (id : NodeId) : (withEmpty p.tree).isWithin id p.root =
        p.tree.isWithin id p.root :=
      unchanged.isWithin_root linked grows.linked rooted.isTop.top
    have sameWithin {id : NodeId} (outer : NodeId)
        (isAttached : p.tree.isWithin id p.root = true) :=
      (unchanged.alike linked rooted.isTop.top).isWithin linked grows.linked isAttached outer
    refine (rooted.spares_grow grows).trans (blank.spares_edited edited possible
      ((sameRoot _).trans attached) removed.root ?_ ?_
      fun id d isOld isAttached outside means => ?_)
    · rintro n ⟨⟩
      exact neat.tidy.not_allocated loose.new
    · rintro n ⟨⟩
      have notNew : some (nextEmpty p.tree) ≠ some p.root := fun same =>
        loose.new (Option.some.inj same ▸ rooted.isTop.allocated)
      refine (edited.linked grows.linked possible).confines_of_empty
        (edited.top_after grows.linked possible ⟨top.1, top.2⟩ ((sameRoot _).trans attached) notNew)
        ?_
      have tag := edited.tag (nextEmpty p.tree)
      rw [isEmpty] at tag
      cases shape : after.tree.node (nextEmpty p.tree) <;> simp_all [Node.tag]
    · have isAttached : p.tree.isWithin id p.root = true := (sameRoot id).symm.trans isAttached
      have outside : p.tree.isWithin id (p.leaving target) = false :=
        (sameWithin _ isAttached).symm.trans outside
      have means : p.lexicon.meaning? id = some d :=
        (congrArg (Lexicon.meaning? · id) sameLexicon).symm.trans means
      have declared := (Lexicon.binder?_some (Lexicon.meaning?_some means)).1
      exact (sameWithin _ (linked.scopes_owner rooted.isTop declared).1).trans
        (unmissed id d isOld isAttached outside means)

/-! ### Orderly changes -/

/-- What is asked of changes: that the links of the store stay intact; that also all nodes stand
where they may; that moreover no jump leaves its function, or that all names keep their meaning. -/
inductive Aim where
  | links | places | jumps | names
deriving DecidableEq

/-- A change that goes on from a first program as it is asked. -/
structure Orderly (o : Program) (aim : Aim) (p q : Program) : Prop extends p.Follows q where
  neat : aim ≠ .links → o.Neat q
  calm : aim = .jumps → o.Calm q
  steady : aim = .names → q.Steady ∧ p.Leads q
  spares : aim = .names → o.Spares p q

variable {aim : Aim}

namespace Orderly

theorem stay (orderly : o.Orderly aim p q) : o.Orderly aim q q where
  toFollows := .refl orderly.rooted
  neat := orderly.neat
  calm := orderly.calm
  steady isNames := ⟨(orderly.steady isNames).1, .refl q⟩
  spares _ := .refl

theorem trans (first : o.Orderly aim p q) (second : o.Orderly aim q after) :
    o.Orderly aim p after where
  toFollows := first.toFollows.trans second.toFollows
  neat := second.neat
  calm := second.calm
  steady isNames :=
    ⟨(second.steady isNames).1, (first.steady isNames).2.trans (second.steady isNames).2⟩
  spares isNames := (first.spares isNames).trans (second.spares isNames)

theorem links (rooted : p.Rooted) : o.Orderly .links p p where
  toFollows := .refl rooted
  neat isOther := absurd rfl isOther
  calm := nofun
  steady := nofun
  spares := nofun

theorem places (neat : o.Neat p) : o.Orderly .places p p where
  toFollows := .refl neat.rooted
  neat _ := neat
  calm := nofun
  steady := nofun
  spares := nofun

theorem jumps (neat : o.Neat p) (calm : o.Calm p) : o.Orderly .jumps p p where
  toFollows := .refl neat.rooted
  neat _ := neat
  calm _ := calm
  steady := nofun
  spares := nofun

theorem names (neat : o.Neat p) (steady : p.Steady) : o.Orderly .names p p where
  toFollows := .refl neat.rooted
  neat _ := neat
  calm := nofun
  steady _ := ⟨steady, .refl p⟩
  spares _ := .refl

end Orderly

/-- A store that has grown out of that of a program as it is asked. -/
structure Grown (o : Program) (aim : Aim) (t grown : Tree) : Prop where
  grows : t.Grows grown
  sorted : aim ≠ .links → grown.Sorted o.Owns
  calm : aim = .jumps → grown.Calm o.Owns
  wellBound : aim = .names → grown.WellBound

theorem Orderly.grow (here : o.Orderly aim p p) (grown' : o.Grown aim p.tree grown) :
    o.Orderly aim p { p with tree := grown } where
  toFollows := .grow here.rooted grown'.grows
  neat isOther := (here.neat isOther).grow grown'.grows (grown'.sorted isOther)
  calm := grown'.calm
  steady isNames := by
    have steady := (here.steady isNames).1
    have assembly : p.tree.Assembly [] grown :=
      ⟨grown'.grows, by have := grown'.grows.size; have := steady.nonempty; omega, by simp,
        List.nodup_nil⟩
    exact steady.grow (.of_assembly assembly (grown'.wellBound isNames))
  spares _ := here.rooted.spares_grow grown'.grows

/-- What may come into the place of a node: something new that suits it, with no more jumps that go
out of it; and an operand for an operand where names are to keep their meaning. -/
structure Fits (o : Program) (aim : Aim) (p : Program) (target replacement : NodeId) : Prop where
  allocated : p.tree.Allocated replacement
  isNew : aim ≠ .links → ¬o.tree.Allocated replacement
  suits : aim ≠ .links → p.tree.Suits target replacement
  stay : aim = .jumps → ∀ j, p.tree.JumpsOut j replacement → p.tree.JumpsOut j target
  free : aim = .names → ¬p.tree.Binds target
  operands : aim = .names → (p.node target).isOperand = true ∧ (p.node replacement).isOperand = true

namespace Orderly

variable (here : o.Orderly aim p p)

include here

theorem replace (fits : o.Fits aim p target replacement)
    (done : p.replace target replacement = .ok (placed, after)) :
    o.Orderly aim p after where
  toFollows := (here.rooted.of_replace fits.allocated done).1
  neat isOther :=
    ((here.neat isOther).replace fits.allocated (fits.isNew isOther) (fits.suits isOther) done).1
  calm isJumps := by
    have isOther : aim ≠ .links := by rintro rfl; cases isJumps
    exact ((here.neat isOther).replace fits.allocated (fits.isNew isOther)
      (fits.suits isOther) done).2 (here.calm isJumps) (fits.stay isJumps)
  steady isNames := (here.steady isNames).1.replace fits.allocated (fits.free isNames)
    (Node.not_isDeclarator_of_isOperand (fits.operands isNames).1) done
  spares isNames := by
    have isOther : aim ≠ .links := by rintro rfl; cases isNames
    obtain ⟨targetOperand, isOperand⟩ := fits.operands isNames
    exact (here.neat isOther).spares_replace (here.steady isNames).1 fits.allocated
      (fits.isNew isOther) (fits.free isNames) targetOperand isOperand done

theorem remove (done : p.remove target = .ok after)
    (unmissed : aim = .names → o.Unmissed p target) :
    o.Orderly aim p after where
  toFollows := (here.rooted.of_remove done).1
  neat isOther := ((here.neat isOther).remove done).1
  calm isJumps := ((here.neat (by rintro rfl; cases isJumps)).remove done).2 (here.calm isJumps)
  steady isNames := by
    obtain ⟨after, leads, -⟩ := (here.steady isNames).1.remove done
    exact ⟨after, leads⟩
  spares isNames := (here.neat (by rintro rfl; cases isNames)).spares_remove done (unmissed isNames)

end Orderly

end Program

end Unravel
