import Unravel.Proofs.Simplify.Instance
import Unravel.Proofs.Simplify.Planned

/-!
Expanding a template. While the uses of parameters in the copy of an expression are replaced one by
one, the copy is an instance of the expression but for the uses that wait (`Expansion.Filling`); in
the end it is an instance.
-/

namespace Unravel

open SimplifyM

namespace Expansion

variable {e : Expansion} {p q : Program} {base start after : Tree}
  {id root value expression : NodeId} {copyOf subst : NodeId → NodeId} {done : List NodeId}

/-- The parts of an expansion are parts of the program. -/
structure Parts (e : Expansion) (p : Program) : Prop where
  arguments : ∀ argument ∈ e.arguments, p.tree.Allocated argument
  defaults :
    ∀ param ∈ e.params, ∀ default, param.form = .defaulted default → p.tree.Allocated default

/-- A program in whose store something has grown. -/
structure Extends (p q : Program) : Prop where
  same : q = { p with tree := q.tree }
  grows : p.tree.Grows q.tree

theorem Extends.paramOf? (extends_ : Extends p q) (linked : p.tree.Linked)
    (allocated : p.tree.Allocated id) :
    e.paramOf? q id = e.paramOf? p id := by
  have role := (extends_.grows.alike linked).role linked extends_.grows.linked allocated
  have belongs : q.bindingOf? id = p.bindingOf? id := by rw [extends_.same]; rfl
  rw [Expansion.paramOf?, Expansion.paramOf?, Program.node, Program.node, role, belongs,
    extends_.grows.node allocated]

theorem isIdentifier_of_paramOf? {use : Param × Nat} (isUse : e.paramOf? p id = some use) :
    (p.node id).isIdentifier = true ∧ (p.tree.role id).reads = true := by
  rw [Expansion.paramOf?, Option.ite_none_right_eq_some, Bool.and_eq_true] at isUse
  exact isUse.1

theorem mem_params_of_paramOf? {use : Param × Nat} (isUse : e.paramOf? p id = some use) :
    use.1 ∈ e.params := by
  rw [Expansion.paramOf?, Option.ite_none_right_eq_some, Option.bind_eq_some_iff] at isUse
  obtain ⟨-, binding, -, found⟩ := isUse
  have member := List.mem_reverse.mp (List.mem_of_find?_eq_some found)
  exact List.fst_mem_of_mem_zipIdx member

/-- A copy of an expression in which some uses have been replaced: `subst` says what stands for
which node now. -/
structure Filling (e : Expansion) (p : Program) (base start : Tree) (expression : NodeId)
    (copyOf subst : NodeId → NodeId) (done : List NodeId) (root : NodeId)
    (after : Tree) : Prop where
  building : base.Building [root] after
  grown : ∀ {id}, start.Allocated id → after.Allocated id
  root : root = subst expression
  waiting : ∀ id, p.tree.isWithin id expression = true → id ∉ done → subst id = copyOf id
  used : ∀ id ∈ done, p.tree.isWithin id expression = true ∧ (e.paramOf? p id).isSome
  filled : ∀ id ∈ done, e.Instance p start after (e.paramOf? p) id (subst id)
  mirrors : ∀ id, p.tree.isWithin id expression = true → e.paramOf? p id = none →
    (p.tree.node id).Mirrors subst (after.node (copyOf id))
  tag : ∀ id, p.tree.isWithin id expression = true →
    (after.node (copyOf id)).tag = (p.tree.node id).tag
  binds : ∀ id, p.tree.isWithin id expression = true → after.Binds (copyOf id) → p.tree.Binds id

structure Copying (p : Program) (base start : Tree) (expression : NodeId)
    (copyOf : NodeId → NodeId) :
    Prop where
  linked : p.tree.Linked
  grows : p.tree.Grows base
  wellBound : base.WellBound
  allocated : p.tree.Allocated expression
  copied : base.Copied expression copyOf start

namespace Copying

variable (copying : Copying p base start expression copyOf)

include copying

theorem isWithin (id : NodeId) : base.isWithin id expression = p.tree.isWithin id expression :=
  copying.grows.isWithin copying.linked copying.allocated

theorem new (inside : p.tree.isWithin id expression = true) : New base start (copyOf id) :=
  ⟨(copying.copied.new id (by rwa [copying.isWithin])).1,
    (copying.copied.new id (by rwa [copying.isWithin])).2⟩

theorem allocated_of_isWithin (inside : p.tree.isWithin id expression = true) :
    p.tree.Allocated id :=
  copying.linked.allocated_of_isWithin inside copying.allocated

theorem eq_of_eq {a b : NodeId} (aInside : p.tree.isWithin a expression = true)
    (bInside : p.tree.isWithin b expression = true) (same : copyOf a = copyOf b) : a = b :=
  copying.copied.injective a b (by rwa [copying.isWithin]) (by rwa [copying.isWithin]) same

theorem filling (nonempty : start.size ≠ 0) :
    Filling e p base start expression copyOf copyOf [] (copyOf expression) start where
  building :=
    ⟨copying.copied.grows, copying.copied.wellBound copying.grows.linked copying.wellBound,
      nonempty, fun id member => List.mem_singleton.mp member ▸ copying.copied.loose,
      List.nodup_singleton _⟩
  grown allocated := allocated
  root := rfl
  waiting _ _ _ := rfl
  used id member := absurd member List.not_mem_nil
  filled id member := absurd member List.not_mem_nil
  mirrors id inside _ := by
    rw [copying.copied.node id (by rwa [copying.isWithin]),
      copying.grows.node (copying.allocated_of_isWithin inside)]
    exact .of_map copyOf _
  tag id inside := by
    rw [copying.copied.node id (by rwa [copying.isWithin]), Node.tag_map,
      copying.grows.node (copying.allocated_of_isWithin inside)]
  binds id inside isBinding := by
    have inBase := copying.copied.binds copying.grows.linked (by rwa [copying.isWithin]) isBinding
    exact (copying.grows.binds_iff copying.linked (copying.allocated_of_isWithin inside)).mp inBase

end Copying

namespace Filling

variable (filling : Filling e p base start expression copyOf subst done root after)
  (copying : Copying p base start expression copyOf)

include filling copying

theorem instance_ (all : ∀ id, p.tree.isWithin id expression = true →
    ∀ use, e.paramOf? p id = some use →
    id ∈ done) : e.Instance p base after (e.paramOf? p) expression root := by
  have older {id : NodeId} (allocated : base.Allocated id) : start.Allocated id :=
    copying.copied.grows.allocated allocated
  have within (id : NodeId) (isAllocated : p.tree.Allocated id)
      (inside : p.tree.isWithin id expression = true) :
      e.Instance p base after (e.paramOf? p) id (subst id) := by
    induction id, isAllocated using copying.linked.induction_children with
    | step id isAllocated induction =>
      cases isUse : e.paramOf? p id with
      | some use =>
        exact (filling.filled id (all id inside use isUse)).keep older
          fun _ isNew => ⟨isNew.allocated, rfl⟩
      | none =>
        have isNew := copying.new inside
        have notDone : id ∉ done := fun isDone => by
          have isSome := (filling.used id isDone).2
          rw [isUse] at isSome
          cases isSome
        rw [filling.waiting id inside notDone]
        refine .copied subst isUse ⟨isNew.isNew, filling.grown isNew.allocated⟩
          (filling.mirrors id inside isUse) fun child member => ?_
        have held := copying.linked.mem_children.mp member
        exact induction child held
          (copying.linked.isWithin_trans (copying.linked.isWithin_of_parent held) inside)
  rw [filling.root]
  exact within expression copying.allocated Tree.isWithin_self

variable {grown : Tree}

/-- The value of the next use has been built, but is not in its place yet. -/
theorem supplied (isUse : (e.paramOf? p id).isSome) (inside : p.tree.isWithin id expression = true)
    (fresh : id ∉ done) (building : after.Building [value] grown)
    (isInstance : e.Instance p after grown (e.paramOf? p) id value) :
    base.Building [value, root] grown ∧
      (∀ {id}, start.Allocated id → grown.Allocated id) ∧
      (∀ done' ∈ id :: done, p.tree.isWithin done' expression = true ∧
        (e.paramOf? p done').isSome) ∧
      (∀ done' ∈ id :: done, e.Instance p start grown (e.paramOf? p) done'
        (Function.update subst id value done')) ∧
      (∀ other, p.tree.isWithin other expression = true → other ∉ id :: done →
        Function.update subst id value other = copyOf other) ∧
      (∀ other, p.tree.isWithin other expression = true →
        grown.node (copyOf other) = after.node (copyOf other) ∧
          (grown.Binds (copyOf other) → p.tree.Binds other)) := by
  have afterLinked := filling.building.grows.linked
  have allocated {other : NodeId} (otherInside : p.tree.isWithin other expression = true) :
      after.Allocated (copyOf other) := filling.grown (copying.new otherInside).allocated
  refine ⟨filling.building.trans building,
    fun isOld => building.grows.allocated (filling.grown isOld), ?_, ?_,
    fun other otherInside waits => ?_, fun other otherInside => ?_⟩
  · exact List.forall_mem_cons.mpr ⟨⟨inside, isUse⟩, filling.used⟩
  · refine List.forall_mem_cons.mpr ⟨?_, fun other isDone => ?_⟩
    · rw [Function.update_self]
      exact isInstance.keep filling.grown fun _ isNew => ⟨isNew.allocated, rfl⟩
    · rw [Function.update_of_ne (by rintro rfl; exact fresh isDone)]
      refine (filling.filled other isDone).keep (fun allocated => allocated) fun _ isNew => ?_
      exact ⟨building.grows.allocated isNew.allocated, building.grows.node isNew.allocated⟩
  · rw [List.mem_cons, not_or] at waits
    rw [Function.update_of_ne waits.1, filling.waiting other otherInside waits.2]
  · refine ⟨building.grows.node (allocated otherInside), fun isBinding => ?_⟩
    exact filling.binds other otherInside
      ((building.grows.binds_iff afterLinked (allocated otherInside)).mp isBinding)

omit filling copying in
theorem eq_of_isUse (linked : p.tree.Linked) (allocated : p.tree.Allocated expression)
    (isUse : (e.paramOf? p expression).isSome) (inside : p.tree.isWithin id expression = true) :
    id = expression := by
  obtain ⟨use, isUse⟩ := Option.isSome_iff_exists.mp isUse
  have isIdentifier := (isIdentifier_of_paramOf? isUse).1
  have nothing : (p.tree.node expression).children = [] := by
    cases shape : p.tree.node expression <;>
      simp_all [Program.node, Node.isIdentifier, Node.identifier?, Node.children]
  rw [← linked.mem_descendants_iff allocated, linked.descendants_eq allocated, nothing] at inside
  simpa using inside

theorem eq_root (inside : p.tree.isWithin id expression = true) (isRoot : copyOf id = root) :
    id = expression := by
  by_cases isDone : expression ∈ done
  · exact eq_of_isUse copying.linked copying.allocated (filling.used expression isDone).2 inside
  · rw [filling.root, filling.waiting expression Tree.isWithin_self isDone] at isRoot
    exact copying.eq_of_eq inside Tree.isWithin_self isRoot

theorem becomes (isUse : (e.paramOf? p id).isSome) (inside : p.tree.isWithin id expression = true)
    (fresh : id ∉ done) (building : after.Building [value] grown)
    (isInstance : e.Instance p after grown (e.paramOf? p) id value) (isRoot : id = expression) :
    Filling e p base start expression copyOf (Function.update subst id value) (id :: done)
      value grown := by
  obtain ⟨pieces, older, used, filled, waiting, kept⟩ :=
    filling.supplied copying isUse inside fresh building isInstance
  refine ⟨⟨pieces.grows, pieces.wellBound, pieces.nonempty,
    fun other member => pieces.loose other ?_, List.nodup_singleton _⟩, older, ?_, waiting, used,
    filled, fun other otherInside free => ?_, fun other otherInside => ?_,
    fun other otherInside => (kept other otherInside).2⟩
  · exact List.mem_cons.mpr (.inl (List.mem_singleton.mp member))
  · rw [isRoot, Function.update_self]
  · rw [(kept other otherInside).1]
    refine (filling.mirrors other otherInside free).congr fun child member => ?_
    rw [Function.update_of_ne]
    rintro rfl
    have held := copying.linked.mem_children.mp member
    have same := copying.linked.isWithin_antisymm (copying.linked.isWithin_of_parent held)
      (isRoot ▸ otherInside)
    exact copying.linked.parent?_ne_self child (same ▸ held)
  · rw [(kept other otherInside).1]
    exact filling.tag other otherInside

theorem spliced (isUse : (e.paramOf? p id).isSome) (inside : p.tree.isWithin id expression = true)
    (fresh : id ∉ done) (building : after.Building [value] grown)
    (isInstance : e.Instance p after grown (e.paramOf? p) id value) (notRoot : id ≠ expression) :
    ¬grown.Binds (copyOf id) ∧
      grown.Edited (grown.replace (copyOf id) value) (copyOf id) (some value) ∧
      Filling e p base start expression copyOf (Function.update subst id value) (id :: done) root
        (grown.replace (copyOf id) value) := by
  obtain ⟨pieces, older, used, filled, waiting, kept⟩ :=
    filling.supplied copying isUse inside fresh building isInstance
  have linked := copying.linked
  have grownLinked := building.grows.linked
  have loose := building.loose value (List.mem_singleton_self _)
  obtain ⟨use, isUse⟩ := Option.isSome_iff_exists.mp isUse
  obtain ⟨isIdentifier, reads⟩ := isIdentifier_of_paramOf? isUse
  have isNew := copying.new inside
  have waits : subst id = copyOf id := filling.waiting id inside fresh
  -- What holds the copy is the copy of what holds the use.
  obtain ⟨parent, held, parentInside⟩ :
      ∃ parent, p.tree.parent? id = some parent ∧ p.tree.isWithin parent expression = true := by
    rcases Tree.isWithin_iff.mp inside with same | above
    · exact absurd same notRoot
    · obtain ⟨parent, held, -⟩ := linked.mem_ancestors_iff.mp above
      exact ⟨parent, held, by rwa [← linked.isWithin_parent held notRoot]⟩
  have child := linked.mem_children.mpr held
  have parentFree : e.paramOf? p parent = none := by
    cases isUse : e.paramOf? p parent with
    | none => rfl
    | some use =>
      have isIdentifier := (isIdentifier_of_paramOf? isUse).1
      cases shape : p.tree.node parent <;>
        simp_all [Program.node, Node.isIdentifier, Node.identifier?, Node.children]
  have copyHeld : grown.parent? (copyOf id) = some (copyOf parent) := by
    rw [← grownLinked.mem_children, (kept parent parentInside).1,
      (filling.mirrors parent parentInside parentFree).children, List.mem_map]
    exact ⟨id, child, waits⟩
  have free : ¬grown.Binds (copyOf id) := fun isBinding =>
    linked.not_binds_of_isUse (by rw [Role.isUse, reads, Bool.true_or])
      ((kept id inside).2 isBinding)
  have plain : (grown.node (copyOf id)).isDeclarator = false := by
    rw [← Node.isDeclarator_tag, (kept id inside).1, filling.tag id inside, Node.isDeclarator_tag]
    cases shape : p.tree.node id <;>
      simp_all [Program.node, Node.isIdentifier, Node.identifier?, Node.isDeclarator]
  have apart := building.grows.not_isWithin_new filling.building.grows.linked
    (filling.grown isNew.allocated) loose.new
  obtain ⟨edited, spliced⟩ := pieces.splice copying.grows.linked copyHeld isNew.isNew
    apart free plain
  have untouched {other : NodeId} (otherNew : New start grown other) :
      (grown.replace (copyOf id) value).node other = grown.node other := by
    refine edited.kept other fun member => otherNew.isNew ?_
    have same := grownLinked.mem_children.mp member
    rw [copyHeld, Option.some.injEq] at same
    exact same ▸ (copying.new parentInside).allocated
  refine ⟨free, edited, ⟨spliced, fun isOld => edited.allocated.mpr (older isOld), ?_,
    waiting, used, fun done' isDone => ?_, fun other otherInside otherFree => ?_,
    fun other otherInside => ?_, fun other otherInside isBinding => ?_⟩⟩
  · rw [Function.update_of_ne (Ne.symm notRoot), filling.root]
  · refine (filled done' isDone).keep (fun allocated => allocated) fun other otherNew => ?_
    exact ⟨edited.allocated.mpr otherNew.allocated, untouched otherNew⟩
  · have mirrors := (filling.mirrors other otherInside otherFree).swapped
      ((kept other otherInside).1 ▸ edited.node (copyOf other))
    refine mirrors.congr fun inner member => ?_
    have above := linked.mem_children.mp member
    have innerInside := linked.isWithin_trans (linked.isWithin_of_parent above) otherInside
    by_cases same : inner = id
    · rw [same, waits, Function.update_self, Node.exchange, if_pos rfl]
    · rw [Function.update_of_ne same, Node.exchange_of_ne]
      by_cases isDone : inner ∈ done
      · intro isCopy
        exact (filling.filled inner isDone).isNew.isNew (isCopy ▸ isNew.allocated)
      · rw [filling.waiting inner innerInside isDone]
        exact fun isCopy => same (copying.eq_of_eq innerInside inside isCopy)
  · rw [edited.tag, (kept other otherInside).1]
    exact filling.tag other otherInside
  · exact (kept other otherInside).2 (edited.binds (fun _ => free) isBinding)

end Filling

/-! ### Values of uses -/

def Supplied (e : Expansion) (p q : Program) (id value : NodeId) (r : Program) : Prop :=
  ∃ grown, r = { q with tree := grown } ∧ q.tree.Building [value] grown ∧
    e.Instance p q.tree grown (e.paramOf? p) id value

theorem instances_of_mapM_copy {mid : Tree} (linked : p.tree.Linked) (grows : p.tree.Grows base)
    (building : base.Building [] mid) (roots : List NodeId)
    (allocated : ∀ root ∈ roots, p.tree.Allocated root) :
    ∀ copy ∈ (roots.mapM Tree.copy mid).1, ∃ root ∈ roots,
      e.Instance p base (roots.mapM Tree.copy mid).2 (fun _ => none) root copy := by
  induction roots generalizing mid with
  | nil => exact fun copy member => absurd member List.not_mem_nil
  | cons head rest induction =>
    rw [List.forall_mem_cons] at allocated
    have growsMid := grows.trans building.grows
    obtain ⟨copyOf, copied, -, isCopy, -⟩ := building.copied head
    have grown : base.Building [] (Tree.copyMapped head mid).2 :=
      ⟨building.grows.trans copied.grows, copied.wellBound building.grows.linked building.wellBound,
        by have := copied.grows.size; have := building.nonempty; omega, by simp, List.nodup_nil⟩
    have further := (Tree.Makes.mapM rest (fun root _ => Tree.makes_copy root) _ [] _
      (.start grown.grows.linked grown.wellBound grown.nonempty)).grows
    have result : ((head :: rest).mapM Tree.copy mid) = ((Tree.copyMapped head mid).1.1 ::
        (rest.mapM Tree.copy (Tree.copyMapped head mid).2).1,
        (rest.mapM Tree.copy (Tree.copyMapped head mid).2).2) := by
      rw [List.mapM_cons]
      rfl
    rw [result, isCopy]
    refine List.forall_mem_cons.mpr ⟨⟨head, List.mem_cons_self .., ?_⟩, fun copy member => ?_⟩
    · refine (Instance.of_copied growsMid linked allocated.1 copied).keep
        (fun isOld => building.grows.allocated isOld) fun _ isNew => ?_
      exact ⟨further.allocated isNew.allocated, further.node isNew.allocated⟩
    · obtain ⟨root, isRoot, isInstance⟩ := induction grown allocated.2 copy member
      exact ⟨root, List.mem_cons_of_mem _ isRoot, isInstance⟩

section Supply

variable {fails : Program → Prop} {use : Param × Nat} (steady : q.Steady)
  (isUse : e.paramOf? p id = some use)

include steady isUse

theorem runs_argument {argument : NodeId} (linked : p.tree.Linked) (extends_ : Extends p q)
    (parts : e.Parts p) (form : use.1.form ≠ .rest) (given : e.arguments[use.2]? = some argument) :
    Runs fails q (build (Tree.copy argument)) (e.Supplied p q id) := by
  obtain ⟨copyOf, copied, -, isCopy, building⟩ :=
    (Tree.Building.start steady.linked steady.wellBound steady.nonempty).copied argument
  refine .mono (.buildPieces (Tree.copy argument) steady building) fun value r made => ?_
  obtain ⟨rfl, rfl⟩ := made
  refine ⟨_, rfl, ?_, .argument isUse form given ?_⟩
  · exact isCopy ▸ building
  · exact isCopy ▸ Instance.of_copied extends_.grows linked
      (parts.arguments argument (List.mem_of_getElem? given)) copied

theorem runs_missing (form : use.1.form = .plain) (absent : e.arguments[use.2]? = none) :
    Runs fails q (build (Tree.identifier "undefined")) (e.Supplied p q id) := by
  have building := Tree.makes_identifier "undefined" q.tree [] q.tree
    (.start steady.linked steady.wellBound steady.nonempty)
  refine .mono (.buildPieces (Tree.identifier "undefined") steady building) fun value r made => ?_
  obtain ⟨rfl, rfl⟩ := made
  have loose := building.loose _ (List.mem_singleton_self _)
  refine ⟨_, rfl, building, .missing isUse form absent ⟨loose.new, loose.allocated⟩ ?_⟩
  rw [show (Tree.identifier "undefined" q.tree).1 = ⟨q.tree.size⟩ from rfl, Tree.identifier,
    Tree.node_alloc, if_pos rfl]
  rfl

theorem runs_rest (linked : p.tree.Linked) (extends_ : Extends p q) (parts : e.Parts p)
    (form : use.1.form = .rest) (given : List NodeId)
    (isGiven : ∀ argument ∈ given, argument ∈ e.arguments) :
    Runs fails q (build (restArray given)) (e.Supplied p q id) := by
  have start := Tree.Building.start steady.linked steady.wellBound steady.nonempty
  have copies := Tree.Makes.mapM given (fun argument _ => Tree.makes_copy argument) q.tree
    [] q.tree start
  have instances := instances_of_mapM_copy (e := e) linked extends_.grows start given
    fun argument member => parts.arguments argument (isGiven argument member)
  have result : restArray given q.tree =
      Tree.alloc (.array (given.mapM Tree.copy q.tree).1) (given.mapM Tree.copy q.tree).2 := rfl
  have building := Tree.makes_alloc (.array (given.mapM Tree.copy q.tree).1) (by simp [Node.part])
    q.tree [] _ copies
  have loose := building.loose _ (List.mem_singleton_self _)
  have shape (other : NodeId) := Tree.node_alloc (.array (given.mapM Tree.copy q.tree).1)
    (given.mapM Tree.copy q.tree).2 other
  have next :
      (Tree.alloc (.array (given.mapM Tree.copy q.tree).1) (given.mapM Tree.copy q.tree).2).1 =
        ⟨(given.mapM Tree.copy q.tree).2.size⟩ := rfl
  refine .mono (.buildPieces (restArray given) steady building) fun value r made => ?_
  obtain ⟨rfl, rfl⟩ := made
  rw [result]
  have elements : ∀ element ∈ (given.mapM Tree.copy q.tree).1, ∃ argument,
      argument ∈ e.arguments ∧ e.Instance p q.tree
        (Tree.alloc (.array (given.mapM Tree.copy q.tree).1) (given.mapM Tree.copy q.tree).2).2
        (fun _ => none) argument element := by
    intro element member
    obtain ⟨argument, isArgument, isInstance⟩ := instances element member
    refine ⟨argument, isGiven argument isArgument, isInstance.keep (fun isOld => isOld)
      fun id isNew => ?_⟩
    refine ⟨Tree.allocated_alloc.mpr (.inl isNew.allocated), ?_⟩
    rw [shape, if_neg]
    rintro rfl
    exact Tree.not_allocated_next _ isNew.allocated
  choose! original isOriginal copied using elements
  refine ⟨_, rfl, building, .rest original isUse form ⟨loose.new, loose.allocated⟩ ?_ ?_ ?_⟩
  · rw [next, shape, if_pos rfl]
    rfl
  · rw [next, shape, if_pos rfl]
    exact isOriginal
  · rw [next, shape, if_pos rfl]
    exact copied

end Supply

/-! ### Expanding -/

theorem mem_uses (linked : p.tree.Linked) (extends_ : Extends p q)
    (allocated : p.tree.Allocated expression) {use : Param × Nat} :
    (id, use) ∈ e.uses q expression ↔
      p.tree.isWithin id expression = true ∧ e.paramOf? p id = some use := by
  have below : id ∈ q.tree.descendants expression ↔ p.tree.isWithin id expression = true := by
    rw [extends_.grows.linked.mem_descendants_iff (extends_.grows.allocated allocated),
      extends_.grows.isWithin linked allocated]
  have same (inside : p.tree.isWithin id expression = true) : e.paramOf? q id = e.paramOf? p id :=
    extends_.paramOf? linked (linked.allocated_of_isWithin inside allocated)
  simp only [uses, List.mem_filterMap, Option.map_eq_some_iff, Prod.mk.injEq]
  constructor
  · rintro ⟨other, member, use, isUse, rfl, rfl⟩
    exact ⟨below.mp member, (same (below.mp member)).symm.trans isUse⟩
  · rintro ⟨inside, isUse⟩
    exact ⟨id, below.mpr inside, use, (same inside).trans isUse, rfl, rfl⟩

theorem nodup_uses (linked : q.tree.Linked) (allocated : q.tree.Allocated expression) :
    ((e.uses q expression).map (·.1)).Nodup := by
  rw [uses, List.map_filterMap]
  refine (linked.nodup_descendants allocated).filterMap fun a b c first second => ?_
  simp only [Option.map_map, Option.mem_def, Option.map_eq_some_iff, Function.comp_apply]
    at first second
  obtain ⟨_, -, rfl⟩ := first
  obtain ⟨_, -, same⟩ := second
  exact same.symm

/-- The default values that an expression needs nest less deep than a limit. -/
def Nests (e : Expansion) (p : Program) : Nat → NodeId → Prop
  | 0, _ => False
  | limit + 1, expression => ∀ id use default, p.tree.isWithin id expression = true →
    e.paramOf? p id = some use → use.1.form = .defaulted default → e.isMissing p use.2 = true →
      e.Nests p limit default

theorem nests_of_plain (plain : ∀ param ∈ e.params, param.form = .plain) (limit : Nat)
    (expression : NodeId) :
    e.Nests p (limit + 1) expression := by
  intro id use default _ isUse form
  rw [plain use.1 (mem_params_of_paramOf? isUse)] at form
  cases form

theorem runs_expand {sure : Prop} (linked : p.tree.Linked) (parts : e.Parts p) (limit : Nat)
    (allocated : p.tree.Allocated expression) (steady : q.Steady) (extends_ : Extends p q)
    (nests : sure → e.Nests p limit expression) :
    Runs (fun r => ¬sure ∧ Extends p r) q (e.expand limit expression)
      (e.Supplied p q expression) := by
  induction limit generalizing expression q with
  | zero => exact .throw ⟨nests, extends_⟩ steady
  | succ limit induction =>
    have atStart := steady
    obtain ⟨copyOf, copied, isCopyOf, isRoot, building⟩ :=
      (Tree.Building.start steady.linked steady.wellBound steady.nonempty).copied expression
    have copying : Copying p q.tree (Tree.copyMapped expression q.tree).2 expression copyOf :=
      ⟨linked, extends_.grows, steady.wellBound, allocated, copied⟩
    rw [expand]
    refine .program (.bind (.buildPieces _ steady building) fun result r steady' leads made => ?_)
    obtain ⟨rfl, rfl⟩ := made
    dsimp only
    have uses (id : NodeId) (use : Param × Nat) : (id, use) ∈ e.uses q expression ↔
        p.tree.isWithin id expression = true ∧ e.paramOf? p id = some use :=
      mem_uses linked extends_ allocated
    have distinct := nodup_uses (e := e) extends_.grows.linked (extends_.grows.allocated allocated)
    rw [isRoot]
    refine .mono (.foldlM_met [] (fun before root r => ∃ subst after,
      r = { q with tree := after } ∧
      Filling e p q.tree (Tree.copyMapped expression q.tree).2 expression
        copyOf subst (before.map (·.1)).reverse root after) steady'
      ⟨copyOf, _, rfl, copying.filling building.nonempty⟩ ?_) fun root r filled => ?_
    · rintro before ⟨id, param, index⟩ behind split root r steady leads ⟨subst, after, rfl, filling⟩
      rw [List.nil_append] at split
      obtain ⟨inside, isUse⟩ := (uses id (param, index)).mp (by simp [split])
      have fresh : id ∉ (before.map (·.1)).reverse := by
        rw [split, List.map_append, List.map_cons] at distinct
        rw [List.mem_reverse]
        exact fun member => (List.nodup_append.mp distinct).2.2 id member id
          (List.mem_cons_self ..) rfl
      have extendsAfter : Extends p { q with tree := after } :=
        ⟨by rw [extends_.same], extends_.grows.trans filling.building.grows⟩
      -- The value of the use comes into its place.
      have place (value : NodeId) (r : Program)
          (supplied : e.Supplied p { q with tree := after } id value r) (steady : r.Steady) :
          Runs (fun r => ¬sure ∧ Extends p r) r (if copyOf id = root then return value else do
            build (modify fun t => t.replace (copyOf id) value)
            return root) fun root r => ∃ subst after, r = { q with tree := after } ∧
              Filling e p q.tree (Tree.copyMapped expression q.tree).2 expression copyOf subst
                ((before ++ [(id, param, index)]).map (·.1)).reverse root after := by
        obtain ⟨grown, rfl, building, isInstance⟩ := supplied
        have isSome : (e.paramOf? p id).isSome := by rw [isUse, Option.isSome_some]
        have met : ((before ++ [(id, param, index)]).map (·.1)).reverse =
          id :: (before.map (·.1)).reverse := by simp
        rw [met]
        split
        · rename_i same
          refine .pure steady ⟨_, grown, rfl, filling.becomes copying isSome inside fresh building
            isInstance ?_⟩
          exact filling.eq_root copying inside same
        · rename_i different
          have notRoot : id ≠ expression := by
            rintro rfl
            exact different ((filling.waiting id inside fresh).symm.trans filling.root.symm)
          obtain ⟨free, edited, spliced⟩ :=
            filling.spliced copying isSome inside fresh building isInstance notRoot
          refine .bind (.buildAny rfl (atStart.grow spliced.building).1 ⟨rfl, ?_, ?_, ?_⟩)
            fun _ r steady _ made => .pure steady ⟨_, _, made.1, spliced⟩
          · exact Nat.le_of_eq edited.size.symm
          · exact fun _ => edited.tag _
          · exact fun _ => edited.binds fun _ => free
      have copy : Std.HashMap.getD (Tree.copyMapped expression q.tree).1.2 id id = copyOf id :=
        congrFun isCopyOf id
      simp only [copy]
      have defaulted {default : NodeId} (form : param.form = .defaulted default)
          (isMissing : e.isMissing p index = true) : Runs (fun r => ¬sure ∧ Extends p r)
            { q with tree := after } (e.expand limit default)
              (e.Supplied p { q with tree := after } id) := by
        have isParam := mem_params_of_paramOf? isUse
        refine .mono (induction (parts.defaults param isParam default form) steady extendsAfter ?_)
          ?_
        · exact fun isSure => nests isSure id (param, index) default inside isUse form isMissing
        rintro value r ⟨grown, rfl, building, isInstance⟩
        exact ⟨grown, rfl, building, .default isUse isParam form isMissing isInstance⟩
      split
      · rename_i form supplied
        have notRest : param.form ≠ .rest := by simp [form]
        exact .bind (runs_argument steady isUse linked extendsAfter parts notRest supplied)
          fun value r steady _ supplied => place value r supplied steady
      · rename_i form missing
        exact .bind (runs_missing steady isUse form missing) fun value r steady _ supplied =>
          place value r supplied steady
      · rename_i form
        exact .bind (runs_rest steady isUse linked extendsAfter parts form _
          fun argument member => List.mem_of_mem_drop member) fun value r steady _ supplied =>
            place value r supplied steady
      · rename_i form missing
        have isMissing :
            e.isMissing p index = true := by rw [Expansion.isMissing, missing, Option.all_none]
        exact .bind (defaulted form isMissing)
          fun value r steady _ supplied => place value r supplied steady
      · rename_i argument form supplied
        refine .program ?_
        split
        · rename_i isUndefined
          have isMissing : e.isMissing p index = true := by
            rw [Expansion.isMissing, supplied, Option.all_some, ← isUndefined,
              Program.node, Program.node,
              extendsAfter.grows.node (parts.arguments _ (List.mem_of_getElem? supplied))]
          exact .bind (defaulted form isMissing)
            fun value r steady _ supplied => place value r supplied steady
        · have notRest : param.form ≠ .rest := by simp [form]
          exact .bind (runs_argument steady isUse linked extendsAfter parts notRest supplied)
            fun value r steady _ supplied => place value r supplied steady
    · obtain ⟨subst, after, rfl, filling⟩ := filled
      refine ⟨after, rfl, filling.building, filling.instance_ copying fun id inside use isUse => ?_⟩
      rw [List.nil_append, List.mem_reverse, List.mem_map]
      exact ⟨(id, use), (uses id use).mpr ⟨inside, isUse⟩, rfl⟩

end Expansion

namespace Tree

variable {t : Tree} {function expression : NodeId}

theorem Linked.allocated_child (linked : t.Linked) (parent : NodeId) {child : NodeId}
    (member : child ∈ (t.node parent).children) : t.Allocated child :=
  allocated_of_parent? (linked.mem_children.mp member)

theorem Linked.exists_of_singleReturn? (linked : t.Linked)
    (found : t.singleReturn? function = some expression) :
    ∃ body only, t.parent? body = some function ∧ t.parent? only = some body ∧
      t.parent? expression = some only := by
  obtain ⟨f, only, shape, block, returned⟩ := of_singleReturn? found
  refine ⟨f.body, only, ?_, ?_, ?_⟩
  · rw [← linked.mem_children, shape]
    simp [Node.children]
  · rw [← linked.mem_children, block]
    exact List.mem_singleton_self _
  · rw [← linked.mem_children, returned]
    exact List.mem_singleton_self _

theorem Linked.allocated_of_singleReturn? (linked : t.Linked)
    (found : t.singleReturn? function = some expression) : t.Allocated expression := by
  obtain ⟨body, only, -, -, held⟩ := linked.exists_of_singleReturn? found
  exact allocated_of_parent? held

theorem Linked.isWithin_of_singleReturn? (linked : t.Linked)
    (found : t.singleReturn? function = some expression) :
    t.isWithin expression function = true := by
  obtain ⟨body, only, bodyHeld, onlyHeld, held⟩ := linked.exists_of_singleReturn? found
  exact linked.isWithin_trans (linked.isWithin_of_parent held)
    (linked.isWithin_trans (linked.isWithin_of_parent onlyHeld)
      (linked.isWithin_of_parent bodyHeld))

end Tree

namespace Program

variable {p : Program}

theorem shape_of_param {id default : NodeId} {param : Param} (isParam : p.param id = .ok param)
    (form : param.form = .defaulted default) :
    ∃ left, p.node id = .assignmentPattern left default := by
  unfold Program.param at isParam
  split at isParam
  · cases isParam
    cases form
  · rename_i left right shape
    split at isParam
    · cases isParam
      cases form
      exact ⟨left, shape⟩
    · cases isParam
  · split at isParam
    · cases isParam
      cases form
    · cases isParam
  · cases isParam

theorem parent?_of_param (linked : p.tree.Linked) {id default : NodeId} {param : Param}
    (isParam : p.param id = .ok param) (form : param.form = .defaulted default) :
    p.tree.parent? default = some id := by
  obtain ⟨left, shape⟩ := shape_of_param isParam form
  rw [← linked.mem_children, show p.tree.node id = .assignmentPattern left default from shape]
  simp [Node.children]

theorem exists_of_mem_mapM {ε α β : Type} {f : α → Except ε β} {items : List α} {results : List β}
    (made : items.mapM f = .ok results) {result : β} (member : result ∈ results) :
    ∃ item ∈ items, f item = .ok result := by
  induction items generalizing results with
  | nil =>
    cases made
    cases member
  | cons head rest induction =>
    rw [List.mapM_cons] at made
    simp only [bind_eq_ok_iff] at made
    obtain ⟨first, isFirst, others, areOthers, same⟩ := made
    cases same
    rcases List.mem_cons.mp member with rfl | member
    · exact ⟨head, List.mem_cons_self .., isFirst⟩
    · obtain ⟨item, isItem, made⟩ := induction areOthers member
      exact ⟨item, List.mem_cons_of_mem _ isItem, made⟩

end Program

namespace SimplifyM.Runs

variable {p : Program} {sure : Prop} {function expression call : NodeId} {arguments : List NodeId}
  {label : String}

/-- What a function stands for when it is called with some arguments. Where it fails, nothing but
new nodes have been made. -/
theorem instantiate (steady : p.Steady)
    (allocated : ∀ argument ∈ arguments, p.tree.Allocated argument)
    (stands : sure → ∃ expression params, p.tree.singleReturn? function = some expression ∧
      (((p.node function).function?.map (·.params)).getD []).mapM p.param = .ok params ∧
      Expansion.Nests ⟨params, arguments⟩ p 65 expression) :
    Runs (fun q => ¬sure ∧ Expansion.Extends p q) p (SimplifyM.instantiate function arguments)
      fun value q =>
        ∃ expression params, p.tree.singleReturn? function = some expression ∧
          (((p.node function).function?.map (·.params)).getD []).mapM p.param = .ok params ∧
          Expansion.Supplied ⟨params, arguments⟩ p p expression value q := by
  have extends_ : Expansion.Extends p p := ⟨rfl, .refl steady.linked⟩
  refine .program ?_
  split
  · rename_i none_
    refine .throw ⟨fun isSure => ?_, extends_⟩ steady
    obtain ⟨expression, -, found, -⟩ := stands isSure
    rw [none_] at found
    cases found
  · rename_i expression found
    have answers (isSure : sure) := stands isSure
    simp only [found, Option.some.injEq, exists_and_left, exists_eq_left'] at answers
    refine .ask (f := fun _ => (((p.node function).function?.map (·.params)).getD []).mapM p.param)
      steady (fun e refused => ?_) fun params made => ?_
    · refine ⟨fun isSure => ?_, extends_⟩
      obtain ⟨params, made, -⟩ := answers isSure
      rw [made] at refused
      cases refused
    have parts : Expansion.Parts ⟨params, arguments⟩ p := by
      refine ⟨allocated, fun param member default form => ?_⟩
      obtain ⟨id, -, isParam⟩ := Program.exists_of_mem_mapM made member
      exact Tree.allocated_of_parent? (Program.parent?_of_param steady.linked isParam form)
    have nests (isSure : sure) : Expansion.Nests ⟨params, arguments⟩ p 65 expression := by
      obtain ⟨others, sameMade, nests⟩ := answers isSure
      rw [made] at sameMade
      cases sameMade
      exact nests
    refine .mono (Expansion.runs_expand (e := ⟨params, arguments⟩) steady.linked parts 65
      (steady.linked.allocated_of_singleReturn? found) steady extends_ nests)
      fun value q supplied => ?_
    exact ⟨expression, params, found, made, supplied⟩

theorem steadily_instantiate (steady : p.Steady)
    (allocated : ∀ argument ∈ arguments, p.tree.Allocated argument) :
    Steadily p (SimplifyM.instantiate function arguments) fun value q =>
      ∃ expression params, p.tree.singleReturn? function = some expression ∧
        (((p.node function).function?.map (·.params)).getD []).mapM p.param = .ok params ∧
        Expansion.Supplied ⟨params, arguments⟩ p p expression value q :=
  monoFails (instantiate steady allocated False.elim) fun _ _ => trivial

theorem expandCall (steady : p.Steady) :
    Steadily p (SimplifyM.expandCall function expression call label) any := by
  refine .program ?_
  split
  · rename_i callee arguments shape
    split
    · have free : p.Free call := .of_isPlain steady (by rw [shape]; rfl)
      have allocated : ∀ argument ∈ arguments, p.tree.Allocated argument := by
        intro argument member
        refine steady.linked.allocated_child call ?_
        rw [show p.tree.node call = .call callee arguments from shape]
        exact List.mem_cons_of_mem _ member
      refine .bind (steadily_instantiate steady allocated) fun value q steady leads supplied => ?_
      obtain ⟨_, _, -, -, grown, rfl, building, -⟩ := supplied
      have loose := building.loose value (List.mem_singleton_self _)
      refine .bind (.replaceAndRecord steady (free.leads leads) loose.allocated) ?_
      exact fun _ _ steady _ _ => .pure steady trivial
    · exact .pure steady trivial
  · exact .pure steady trivial

end SimplifyM.Runs

end Unravel
