import Unravel.Proofs.Program.Reissued
import Unravel.Proofs.Program.Remnant
import Unravel.Proofs.Simplify.Orderly

/-!
Rules that put the value of a member into the place where it is read. They look for writes at the
node above a member alone, and what they replace is not written there, nor is any member of the same
variable (`Program.ReadOnly`). A member in a pattern is written all the same.

Main statement: what is replaced is written at most as a target of a pattern, and so are the other
members of its variable (`Rule.inlines_reads`).
-/

namespace Unravel

namespace Node

variable {α : Type}

/-- Whether a node is a member access. -/
def isMember : Node α → Bool
  | member .. => true
  | _ => false

theorem isMember_iff {n : Node α} :
    n.isMember = true ↔ ∃ base key computed, n = .member base key computed := by
  cases n <;> simp [isMember]

theorem isMember_tag (n : Node α) : n.tag.isMember = n.isMember := by cases n <;> rfl

end Node

namespace Tree

variable {t : Tree} {id member base key : NodeId} {computed : Bool}

/-! ### What is written -/

/--
A node is assigned to, updated or deleted, or it is a target of a pattern that is written, at any
depth. -/
inductive Written (t : Tree) : NodeId → Prop
  | assigned {id parent value : NodeId} {operator : AssignOp}
      (shape : t.node parent = .assignment operator id value) :
      Written t id
  | updated {id parent : NodeId} {operator : UpdateOp} {leading : Bool}
      (shape : t.node parent = .update operator leading id) : Written t id
  | deleted {id parent : NodeId} (shape : t.node parent = .unary .delete id) : Written t id
  | element {id parent : NodeId} {elements : List NodeId}
      (shape : t.node parent = .arrayPattern elements) (member : id ∈ elements)
      (written : Written t parent) : Written t id
  | rest {id parent : NodeId} (shape : t.node parent = .restElement id)
      (written : Written t parent) : Written t id
  | default {id parent value : NodeId} (shape : t.node parent = .assignmentPattern id value)
      (written : Written t parent) : Written t id

/-- A node is an element, the rest or the defaulted element of a pattern. -/
def IsTarget (t : Tree) (id : NodeId) : Prop := ∃ pattern, id ∈ (t.node pattern).part .pattern

theorem Linked.isWriteTarget_or_isTarget (linked : t.Linked) (written : t.Written id) :
    t.isWriteTarget id = true ∨ t.IsTarget id := by
  have held (parent : NodeId) (member : id ∈ (t.node parent).children) :
      t.parent? id = some parent :=
    linked.mem_children.mp member
  cases written with
  | @assigned _ parent _ _ shape =>
    rw [isWriteTarget, held parent (by simp [shape, Node.children]), Option.map_some, shape]
    simp
  | @updated _ parent _ _ shape =>
    rw [isWriteTarget, held parent (by simp [shape, Node.children]), Option.map_some, shape]
    simp
  | @deleted _ parent shape =>
    rw [isWriteTarget, held parent (by simp [shape, Node.children]), Option.map_some, shape]
    simp
  | element shape member => exact .inr ⟨_, by rwa [shape]⟩
  | rest shape => exact .inr ⟨_, by rw [shape]; exact List.mem_singleton_self _⟩
  | default shape => exact .inr ⟨_, by rw [shape]; exact List.mem_singleton_self _⟩

/-! ### What lies in a member -/

theorem allocated_of_isMember (isMember : (t.node id).isMember = true) : t.Allocated id :=
  allocated_of_node_ne fun missing => by rw [missing] at isMember; cases isMember

theorem Linked.eq_of_isWithin_member (linked : t.Linked)
    (shape : t.node member = .member base key computed) (isBase : (t.node base).children = [])
    (isKey : (t.node key).children = []) (isMember : (t.node id).isMember = true)
    (within : t.isWithin id member = true) : id = member := by
  by_contra different
  obtain ⟨child, isChild, below⟩ := linked.exists_child within different
  have isLeaf : (t.node child).children = [] := by
    rw [shape] at isChild
    rcases List.mem_pair.mp isChild with rfl | rfl
    · exact isBase
    · exact isKey
  rw [linked.eq_of_isWithin_leaf isLeaf below] at isMember
  obtain ⟨_, _, _, isMember⟩ := Node.isMember_iff.mp isMember
  rw [isMember] at isLeaf
  cases isLeaf

end Tree

namespace Program

variable {o p q after : Program} {id member target replacement placed base key value
  holder x y : NodeId} {binding b : BindingId} {computed : Bool} {grown : Tree} {d : Declaration}

/-! ### References -/

theorem Steady.mem_references_of_isRead (steady : p.Steady) (isRead : p.tree.IsRead id)
    (belongs : p.bindingOf? id = some b) : id ∈ (p.binding b).references := by
  obtain ⟨d, means, -⟩ := steady.sound.exists_of_bindingOf? belongs
  have bound := Lexicon.meaning?_some means
  have found : p.scopes.find? d.owner d.name = some b := by
    rw [steady.sound.bindingOf?_eq, means, Option.bind_some] at belongs
    exact belongs
  have different : id ≠ d.identifier := by
    rintro rfl
    obtain ⟨holder, -, declares⟩ := (steady.linked.mem_declared steady.isTop).mp
      (Lexicon.binder?_some bound).1
    exact steady.linked.not_binds_of_isRead isRead (steady.linked.binds_of_mem declares)
  refine ((steady.sound.describes.references d b bound found).2 id).mpr ?_
  refine ((steady.linked.regular steady.isTop).reads_or_writes means different).resolve_right
    fun writes => ?_
  exact steady.notMem_mutations_of_isRead isRead belongs
    (((steady.sound.describes.mutations d b bound found).2 id).mpr writes)

theorem Sound.bindingOf?_of_reference (sound : p.Sound) (belongs : p.bindingOf? x = some b)
    (member : y ∈ (p.binding b).references) : p.bindingOf? y = some b := by
  obtain ⟨d, means, -⟩ := sound.exists_of_bindingOf? belongs
  have isMeant := (sound.meaning?_of_mem means belongs (.inl member)).1
  rw [sound.bindingOf?_eq, isMeant, ← means, ← sound.bindingOf?_eq, belongs]

theorem Remnant.isMember_eq {may : NodeId → Prop} (remnant : o.Remnant may q)
    (isOld : o.tree.Allocated id) :
    (q.node id).isMember = (o.node id).isMember := by
  rw [← Node.isMember_tag, remnant.tag isOld, Node.isMember_tag]

/-! ### Programs with members replaced -/

/-- A member that is not written as the node above it shows, of a variable of which no member is. -/
structure ReadOnly (p : Program) (member : NodeId) : Prop where
  notWritten : p.tree.isWriteTarget member = false
  others :
    ∀ {base key computed}, p.node member = .member base key computed →
    ∃ b, p.bindingOf? base = some b ∧
      ∀ {other otherBase otherKey otherComputed}, p.isAttached other = true →
        p.node other = .member otherBase otherKey otherComputed → p.bindingOf? otherBase = some b →
        p.tree.isWriteTarget other = false

/-- Members of a first program have been replaced by something new, all of them read-only ones. What
is left holds in each place what it held, or something new that is no identifier. -/
structure Dereferenced (o p q : Program) : Prop extends o.Orderly .names p q where
  remnant : o.Remnant (fun id => (o.node id).isMember = true) q
  holds : ∀ {id}, o.isAttached id = true → q.isAttached id = true → ∃ f : NodeId → NodeId,
    q.node id = (o.node id).map f ∧ ∀ child, f child = child ∨
      ¬o.tree.Allocated (f child) ∧ q.tree.Allocated (f child) ∧
        (q.node (f child)).isIdentifier = false
  readOnly :
    ∀ {id}, o.isAttached id = true → q.isAttached id = false →
    (o.node id).isMember = true → o.ReadOnly id

namespace Dereferenced

theorem start (steady : o.Steady) (sorted : o.tree.Sorted fun id => o.isAttached id = true) :
    o.Dereferenced o o where
  toOrderly := .names (.start steady.sound sorted) steady
  remnant := .start steady
  holds _ _ := ⟨fun id => id, (Node.map_self _).symm, fun _ => .inl rfl⟩
  readOnly attached detached := by simp [attached] at detached

theorem stay (dereferenced : o.Dereferenced p q) : o.Dereferenced q q :=
  ⟨dereferenced.toOrderly.stay, dereferenced.remnant, dereferenced.holds, dereferenced.readOnly⟩

theorem trans (first : o.Dereferenced p q) (second : o.Dereferenced q after) :
    o.Dereferenced p after :=
  ⟨first.toOrderly.trans second.toOrderly, second.remnant, second.holds, second.readOnly⟩

section Left

variable (dereferenced : o.Dereferenced o q) (before : o.isAttached id = true)
  (attached : q.isAttached id = true)

include dereferenced

include before attached

theorem exists_holder (held : o.tree.parent? id = some holder) :
    ∃ f : NodeId → NodeId, q.node holder = (o.node holder).map f ∧
      ∀ child, f child = id ↔ child = id := by
  have isOld := dereferenced.remnant.origin.sound.rooted.allocated_of_isAttached before
  have heldNow : q.tree.parent? id = some holder :=
    (dereferenced.remnant.parent isOld attached).2.trans held
  obtain ⟨f, same, choice⟩ :=
    dereferenced.holds (dereferenced.remnant.origin.sound.rooted.isAttached_parent before held)
    (dereferenced.remnant.rooted.isAttached_parent attached heldNow)
  have eq_of_same {child : NodeId} (isId : f child = id) : child = id := by
    rcases choice child with stays | ⟨isNew, -⟩
    · exact stays.symm.trans isId
    · exact absurd (isId ▸ isOld) isNew
  refine ⟨f, same, fun child => ⟨eq_of_same, ?_⟩⟩
  rintro rfl
  have member := dereferenced.remnant.steady.linked.mem_children.mpr heldNow
  rw [← node, same, Node.children_map, List.mem_map] at member
  obtain ⟨other, -, isId⟩ := member
  rwa [eq_of_same isId] at isId

theorem isWriteTarget_eq : q.tree.isWriteTarget id = o.tree.isWriteTarget id := by
  have isOld := dereferenced.remnant.origin.sound.rooted.allocated_of_isAttached before
  have same := (dereferenced.remnant.parent isOld attached).2
  rw [Tree.isWriteTarget, Tree.isWriteTarget, same]
  cases held : o.tree.parent? id with
  | none => rfl
  | some holder =>
    obtain ⟨f, shape, here⟩ := dereferenced.exists_holder before attached held
    rw [Option.map_some, Option.map_some, show q.tree.node holder = _ from shape, Program.node]
    generalize o.tree.node holder = n
    cases n with
    | assignment operator left right => exact decide_eq_decide.mpr (here left)
    | unary operator argument => cases operator <;> rfl
    | _ => rfl

theorem member_base (shape : o.node id = .member base key computed)
    (isIdentifier : (o.node base).isIdentifier = true) :
    q.isAttached base = true ∧ ∃ key, q.node id = .member base key computed := by
  have linked := dereferenced.remnant.origin.linked
  have isTop := dereferenced.remnant.origin.isTop
  have steady := dereferenced.remnant.steady
  have held : o.tree.parent? base = some id :=
    linked.mem_children.mp (by simp [show o.tree.node id = _ from shape, Node.children])
  have baseBefore : o.isAttached base = true := by
    rw [isAttached_eq linked isTop.top] at before ⊢
    exact Tree.Reissued.attached_child linked before held
  have left : q.isAttached base = true := by
    by_contra gone
    rcases dereferenced.remnant.gone baseBefore (Bool.eq_false_iff.mpr gone) with
      isOther | ⟨outer, isMember, within, goneOuter⟩
    · cases found : o.node base <;> simp_all [Node.isIdentifier, Node.identifier?,
        Node.isVariableDeclaration]
    · have different : base ≠ outer := by
        rintro rfl
        cases found : o.node base <;> simp_all [Node.isIdentifier, Node.identifier?, Node.isMember]
      -- What the name lies in has the member in it, which is left.
      rw [linked.isWithin_parent held different] at within
      rw [← dereferenced.remnant.isWithin_eq (linked.allocated_parent held) attached] at within
      rw [isAttached_eq steady.linked steady.isTop.top] at attached
      rw [isAttached_eq steady.linked steady.isTop.top, Bool.eq_false_iff] at goneOuter
      exact goneOuter (steady.linked.isWithin_root_of_above steady.isTop attached within)
  obtain ⟨f, same, here⟩ := dereferenced.exists_holder baseBefore left held
  refine ⟨left, f key, ?_⟩
  rw [same, shape]
  simp [Node.map, Node.traverse, (here base).mpr rfl]

end Left

theorem readOnly_of_references (dereferenced : o.Dereferenced o q)
    (before : o.isAttached member = true) (attached : q.isAttached member = true)
    (shape : q.node member = .member base key computed) (belongs : q.bindingOf? base = some binding)
    (references : ∀ use ∈ (q.binding binding).references, ∀ m k c, q.node m = .member use k c →
      q.tree.isWriteTarget m = false) : o.ReadOnly member := by
  have origin := dereferenced.remnant.origin
  have steady := dereferenced.remnant.steady
  have spares := dereferenced.spares rfl
  have unwritten {use m k : NodeId} {c : Bool} (found : q.node m = .member use k c)
      (belongs : q.bindingOf? use = some binding) : q.tree.isWriteTarget m = false :=
    references use (steady.mem_references_of_isRead (.base found) belongs) m k c found
  have isOld := origin.sound.rooted.allocated_of_isAttached before
  obtain ⟨d, means, -⟩ := steady.sound.exists_of_bindingOf? belongs
  have isName := steady.sound.isIdentifier_of_meaning? means
  refine ⟨?_, fun {base' key' computed'} oldShape => ?_⟩
  · rw [← dereferenced.isWriteTarget_eq before attached]
    exact unwritten shape belongs
  -- The name has been there from the start, for what is new is no identifier.
  have sameBase : base' = base := by
    obtain ⟨f, same, choice⟩ := dereferenced.holds before attached
    rw [shape, oldShape] at same
    simp only [Node.map, Node.traverse, Id.run_bind, Id.run_pure] at same
    obtain ⟨isBase, -, -⟩ := Node.member.inj same
    rcases choice base' with stays | ⟨-, -, isOther⟩
    · exact stays.symm.trans isBase.symm
    · rw [show f base' = base from isBase.symm, isName] at isOther
      cases isOther
  subst sameBase
  have left {other name k : NodeId} {c : Bool} (before : o.isAttached other = true)
      (attached : q.isAttached other = true) (found : o.node other = .member name k c)
      (isIdentifier : (o.node name).isIdentifier = true) :=
    dereferenced.member_base before attached found isIdentifier
  have attachedBase {other name k : NodeId} {c : Bool} (before : o.isAttached other = true)
      (found : o.node other = .member name k c) : o.isAttached name = true := by
    rw [isAttached_eq origin.linked origin.isTop.top] at before ⊢
    refine Tree.Reissued.attached_child origin.linked before (origin.linked.mem_children.mp ?_)
    simp [show o.tree.node other = _ from found, Node.children]
  have baseBefore := attachedBase before oldShape
  have wasName : (o.node base').isIdentifier = true := by
    rw [← Node.isIdentifier_tag,
      ← dereferenced.remnant.tag (origin.sound.rooted.allocated_of_isAttached baseBefore),
      Node.isIdentifier_tag]
    exact isName
  have meant : o.lexicon.meaning? base' = some d :=
    (spares base' baseBefore (left before attached oldShape wasName).1).2.symm.trans means
  obtain ⟨b, isBound, -⟩ := origin.sound.exists_of_meaning? meant
  refine ⟨b, isBound, fun {other name k c} otherBefore found belongsOther => ?_⟩
  cases otherAttached : q.isAttached other with
  | false =>
    exact (dereferenced.readOnly otherBefore otherAttached (by rw [found]; rfl)).notWritten
  | true =>
    have otherMeant := (origin.sound.meaning?_eq (belongsOther.trans isBound.symm)).trans meant
    obtain ⟨nameLeft, _, foundNow⟩ :=
      left otherBefore otherAttached found (origin.sound.isIdentifier_of_meaning? otherMeant)
    have otherMeans := (spares name (attachedBase otherBefore found) nameLeft).2.trans otherMeant
    rw [← dereferenced.isWriteTarget_eq otherBefore otherAttached]
    refine unwritten foundNow ?_
    rw [steady.sound.bindingOf?_eq, otherMeans, ← means, ← steady.sound.bindingOf?_eq, belongs]

theorem grow (here : o.Dereferenced p p) (grown' : o.Grown .names p.tree grown) :
    o.Dereferenced p { p with tree := grown } := by
  have orderly := here.toOrderly.grow grown'
  have rooted := here.remnant.rooted
  have same := rooted.isAttached_grow grown'.grows
  refine ⟨orderly, here.remnant.extend (orderly.steady rfl).1 grown'.grows,
    fun {id} before attached => ?_, fun before gone => ?_⟩
  · rw [same] at attached
    obtain ⟨f, shape, choice⟩ := here.holds before attached
    refine ⟨f, ?_, fun child => (choice child).imp_right fun ⟨isNew, allocated, isOther⟩ => ?_⟩
    · rw [Program.node, grown'.grows.node (rooted.allocated_of_isAttached attached)]
      exact shape
    · refine ⟨isNew, grown'.grows.allocated allocated, ?_⟩
      rw [Program.node, grown'.grows.node allocated]
      exact isOther
  · rw [same] at gone
    exact here.readOnly before gone

/-- A read-only member without another one in it is replaced by something that is no identifier. -/
theorem replace (here : o.Dereferenced p p) (fits : o.Fits .names p target replacement)
    (isOther : (p.node replacement).isIdentifier = false)
    (isMember : (p.node target).isMember = true)
    (alone : ∀ {id}, o.isAttached id = true → (o.node id).isMember = true →
      p.tree.isWithin id target = true →
      id = target)
    (readOnly : o.isAttached target = true → o.ReadOnly target)
    (done : p.replace target replacement = .ok (placed, after)) : o.Dereferenced p after := by
  have steady := here.remnant.steady
  have orderly := here.toOrderly.replace fits done
  obtain ⟨base, key, computed, shape⟩ := Node.isMember_iff.mp isMember
  have plain : (p.node target).isDeclarator = false := by rw [shape]; rfl
  have notStatement : (p.node target).isStatement = false := by rw [shape]; rfl
  obtain ⟨remnant, back⟩ := here.remnant.replace (fits.free rfl) plain fits.allocated
    (fits.isNew nofun) (fun isOld => (here.remnant.isMember_eq isOld).symm.trans isMember) done
  refine ⟨orderly, remnant, fun {id} before attached => ?_, fun {id} before gone isMemberOld => ?_⟩
  · have isOld := here.remnant.origin.sound.rooted.allocated_of_isAttached before
    obtain ⟨f, same, choice⟩ := here.holds before (back isOld attached)
    refine ⟨fun child => Node.exchange target replacement (f child), ?_, fun child => ?_⟩
    · rw [steady.node_replace notStatement fits.allocated done, same, Node.map_map]
    · have later {piece : NodeId} (allocated : p.tree.Allocated piece)
          (isOther : (p.node piece).isIdentifier = false) :
          after.tree.Allocated piece ∧ (after.node piece).isIdentifier = false := by
        refine ⟨orderly.allocated allocated, ?_⟩
        rw [Program.node, ← Node.isIdentifier_tag, orderly.tag allocated, Node.isIdentifier_tag]
        exact isOther
      dsimp only [Node.exchange]
      split
      · exact .inr ⟨fits.isNew nofun, later fits.allocated isOther⟩
      · exact (choice child).imp_right fun ⟨isNew, allocated, isOther⟩ =>
          ⟨isNew, later allocated isOther⟩
  · cases mid : p.isAttached id with
    | false => exact here.readOnly before mid isMemberOld
    | true =>
      have within : p.tree.isWithin id target = true := by
        by_contra outside
        rw [isAttached_eq steady.linked steady.isTop.top] at mid
        have kept := ((Replaced.of_replace steady.sound fits.allocated done).keeps_and_loses.1 mid
          (Bool.eq_false_iff.mpr outside)).1
        rw [isAttached_eq orderly.rooted.linked orderly.rooted.isTop.top, kept] at gone
        cases gone
      obtain rfl := alone before isMemberOld within
      exact readOnly before

end Dereferenced

/-- What may be put into the place of a member: an operand that is no identifier. -/
def IsInlinable (t : Tree) (id : NodeId) : Prop := IsOperand t id ∧ (t.node id).isIdentifier = false

theorem lasting_isInlinable : Lasting IsInlinable where
  grow {t after id} linked same isAllocated inlinable := by
    refine ⟨lasting_isOperand.grow linked same isAllocated inlinable.1, ?_⟩
    rw [same isAllocated]
    exact inlinable.2
  copy {t after root copyOf} linked copied inlinable := by
    refine ⟨lasting_isOperand.copy linked copied inlinable.1, ?_⟩
    rw [← Node.isIdentifier_tag, copied.tag_copy Tree.isWithin_self, Node.isIdentifier_tag]
    exact inlinable.2

end Program

open Program

namespace SimplifyM.Along

variable {o p : Program} {member value : NodeId} {kind : EventKind} {label : String}

theorem course_dereferenced (o : Program) : Course o.Dereferenced :=
  ⟨Dereferenced.stay, Dereferenced.trans, fun dereferenced => dereferenced.toOrderly.toFollows⟩

theorem dereference (here : o.Dereferenced p p) (isMember : (p.node member).isMember = true)
    (source : o.Source .names IsInlinable p.tree value)
    (alone : ∀ {id}, o.isAttached id = true → (o.node id).isMember = true →
      p.tree.isWithin id member = true →
      id = member)
    (readOnly : o.isAttached member = true → o.ReadOnly member) :
    Along o.Dereferenced p (do
      let copy ← SimplifyM.build (Tree.copy value)
      SimplifyM.replaceAndRecord kind label member copy
      return true) any := by
  have course := course_dereferenced o
  have linked := here.remnant.steady.linked
  have spot : p.Spot .names member := by
    obtain ⟨base, key, computed, shape⟩ := Node.isMember_iff.mp isMember
    exact here.toOrderly.spot (by rw [shape]; rfl) (by rw [shape]; rfl)
  have built : Along o.Dereferenced p (SimplifyM.build (Tree.copy value)) fun copy q =>
      ∃ grown, q = { p with tree := grown } ∧
        o.Parts .names IsInlinable p.tree (Tree.piece copy) grown := by
    refine edit course here fun copy q done => ?_
    cases done
    have parts := (yields_copy linked lasting_isInlinable source).turns p.tree here.toOrderly.parts
    exact ⟨here.grow parts.grown, _, rfl, parts⟩
  refine bind course built fun copy q leads made => ?_
  obtain ⟨grown, rfl, parts⟩ := made
  have isPiece : copy ∈ Tree.piece copy := List.mem_singleton_self _
  have loose := parts.assembly.loose copy isPiece
  have good := parts.good nofun copy isPiece
  have grows := parts.assembly.grows
  have fits := leads.toOrderly.stay.fits (spot.orderly leads.toOrderly) loose.allocated
    (fun isOther => parts.isNew isOther isPiece) fun _ => good.1
  have replaces : Along o.Dereferenced { p with tree := grown }
      (SimplifyM.replace member copy) any := by
    refine edit course leads.stay fun placed after done => ⟨?_, trivial⟩
    refine leads.stay.replace fits good.2 ?_ (fun {id} before isMemberOld within => ?_) readOnly
      done
    · rw [Program.node, grows.node (Tree.allocated_of_isMember isMember)]
      exact isMember
    · rw [(grows.alike linked).isWithin linked grows.linked
        (here.remnant.allocated (here.remnant.origin.sound.rooted.allocated_of_isAttached before))]
        at within
      exact alone before isMemberOld within
  exact thenReturn course (replaceAndRecord course replaces)

end SimplifyM.Along

open SimplifyM

variable {o p q : Program} {c : Context} {member place value element base : NodeId}
  {binding : BindingId}

/-! ### Tables -/

theorem Tree.children_of_memberName? {t : Tree} {base key : NodeId} {computed : Bool}
    (shape : t.node member = .member base key computed) {name : String}
    (found : t.memberName? member = some name) :
    (t.node key).children = [] := by
  rw [memberName?, shape] at found
  dsimp only at found
  split at found
  · rename_i isKey
    rw [isKey]
    rfl
  · rename_i isKey
    rw [isKey]
    rfl
  · cases found

theorem Tree.not_isIdentifier_of_isLiteralValue {t : Tree} {id : NodeId}
    (isLiteral : t.isLiteralValue id = true) :
    (t.node id).isIdentifier = false := by
  cases shape : t.node id <;> simp_all [isLiteralValue, Node.isIdentifier, Node.identifier?]

namespace TableEntry

theorem of_found? (found : found? p c member place = some value) :
    ∃ base key computed binding, p.node member = .member base key computed ∧
      (p.node key).children = [] ∧
      p.bindingOf? base = some binding ∧ p.hasMemberWrites binding = false := by
  simp only [found?, bind, Option.bind_eq_some_iff] at found
  obtain ⟨name, named, table, isTable, -⟩ := found
  unfold table? at isTable
  split at isTable
  · rename_i base key computed shape
    simp only [bind, Option.bind_eq_some_iff] at isTable
    obtain ⟨binding, used, _, -, isTable⟩ := isTable
    split at isTable
    · rename_i holds
      simp only [Bool.and_eq_true, Bool.not_eq_true'] at holds
      exact ⟨base, key, computed, binding, shape, Tree.children_of_memberName? shape named,
        (Option.filter_eq_some_iff.mp used).1, holds.1.2⟩
    · cases isTable
  · cases isTable

theorem not_isIdentifier_of_isCopyable (copyable : isCopyable p member value = true) :
    (p.node value).isIdentifier = false := by
  simp only [isCopyable, Bool.or_eq_true, Bool.and_eq_true, Option.any_eq_true] at copyable
  rcases copyable with isLiteral | ⟨⟨f, isFunction, -⟩, -⟩
  · exact Tree.not_isIdentifier_of_isLiteralValue isLiteral
  · rw [Node.function?_eq_some_iff.mp isFunction]
    rfl

theorem isWriteTarget_of_hasMemberWrites (linked : p.tree.Linked)
    (unwritten : p.hasMemberWrites binding = false) :
    ∀ use ∈ (p.binding binding).references, ∀ m k c, p.node m = .member use k c →
      p.tree.isWriteTarget m = false := by
  intro use isReference m k c shape
  have held : p.tree.parent? use = some m :=
    linked.mem_children.mp (by simp [show p.tree.node m = _ from shape, Node.children])
  have unwritten := List.any_eq_false.mp unwritten use isReference
  simpa [held, shape] using unwritten

theorem dereferences (here : o.Dereferenced o o) : Along o.Dereferenced o runReads any := by
  refine .visit (Along.course_dereferenced o) here fun member q leads isNode _ attached => ?_
  refine .program (.context fun c => ?_)
  dsimp only
  split
  · exact .pure leads.stay trivial
  · rename_i value found
    have passes : (found? q c member member).filter (isCopyable q member) = some value := by
      split at found
      · cases found
      · exact found
    obtain ⟨isFound, copyable⟩ := Option.filter_eq_some_iff.mp passes
    obtain ⟨base, key, computed, binding, shape, isKey, belongs, unwritten⟩ := of_found? isFound
    have steady := leads.remnant.steady
    obtain ⟨d, means, -⟩ := steady.sound.exists_of_bindingOf? belongs
    have isBase := Tree.children_of_isIdentifier (steady.sound.isIdentifier_of_meaning? means)
    have source := source_of_found? leads.toOrderly.stay isFound
    refine .dereference leads.stay (by rw [shape]; rfl)
      ⟨source.toHeld, fun isOther => ⟨source.good isOther, not_isIdentifier_of_isCopyable copyable⟩⟩
      (fun {id} before isMember within => ?_) fun before => ?_
    · rw [← leads.remnant.isMember_eq (here.rooted.allocated_of_isAttached before)] at isMember
      exact steady.linked.eq_of_isWithin_member shape isBase isKey isMember within
    · exact leads.readOnly_of_references before attached shape belongs
        (isWriteTarget_of_hasMemberWrites steady.linked unwritten)

end TableEntry

/-! ### Arrays -/

namespace ArrayRead

theorem access_of_mem_plan (planned : (member, element) ∈ plan p c binding) :
    (∃ base key computed, base ∈ (p.binding binding).references ∧
      p.node member = .member base key computed ∧
      (p.node key).children = []) ∧
      ∀ use ∈ (p.binding binding).references, (access? p use).isSome = true := by
  unfold plan at planned
  dsimp only at planned
  split at planned
  · cases planned
  · split at planned
    · split at planned
      · rename_i holds
        obtain ⟨reference, isReference, read⟩ := List.mem_filterMap.mp planned
        simp only [Bool.and_eq_true, List.all_eq_true] at holds
        refine ⟨?_, fun use isUse => (holds.2 use isUse).2⟩
        unfold readAt? at read
        split at read
        · rename_i position access
          obtain ⟨found, key, computed, held, shape⟩ := of_access? access
          simp only [bind, Option.bind_eq_some_iff, held, Option.some.injEq] at read
          obtain ⟨other, -, holder, rfl, read⟩ := read
          split at read
          · cases read
            refine ⟨reference, key, computed, isReference, shape, ?_⟩
            simp only [access?, held, bind, Option.bind_some, shape] at access
            split at access
            · cases access
            · split at access
              · split at access
                · rename_i isKey
                  rw [isKey]
                  rfl
                · cases access
              · split at access <;> cases access
          · cases read
        · cases read
      · cases planned
    · cases planned

theorem isWriteTarget_of_access? (linked : p.tree.Linked)
    (accesses : ∀ use ∈ (p.binding binding).references, (access? p use).isSome = true) :
    ∀ use ∈ (p.binding binding).references, ∀ m k c, p.node m = .member use k c →
      p.tree.isWriteTarget m = false := by
  intro use isReference m k c shape
  have held : p.tree.parent? use = some m :=
    linked.mem_children.mp (by simp [show p.tree.node m = _ from shape, Node.children])
  have accesses := accesses use isReference
  simp only [access?, held, bind, Option.bind_some, shape] at accesses
  split at accesses
  · cases accesses
  · rename_i unwritten
    simpa using unwritten

theorem dereferences (here : o.Dereferenced o o) : Along o.Dereferenced o run any := by
  have course := Along.course_dereferenced o
  refine .visit course here fun declarator q start _ _ _ => .program ?_
  split
  · split
    · exact .pure start.stay trivial
    · rename_i target belongs
      refine .context fun c => .anyChange course start.stay fun pair planned r leads => ?_
      obtain ⟨_, init, elements, _, _, _, initialized, isArray, isElement, isLiteral, -⟩ :=
        of_mem_plan planned
      obtain ⟨⟨base, key, computed, isReference, shape, isKey⟩, accesses⟩ :=
        access_of_mem_plan planned
      have steady := start.remnant.steady
      have isMember : (q.node pair.1).isMember = true := by rw [shape]; rfl
      have isBase :=
        Tree.children_of_isIdentifier (steady.sound.isUse_of_reference belongs isReference).1
      refine .ifAttached leads.stay fun attached => ?_
      have isOld {id : NodeId} (before : o.isAttached id = true) : o.tree.Allocated id :=
        here.rooted.allocated_of_isAttached before
      have earlier {id : NodeId} (before : o.isAttached id = true)
          (attached : r.isAttached id = true) :
          q.isAttached id = true := (leads.spares rfl id before attached).1
      have orderly := start.stay.toOrderly
      have source := orderly.operand (orderly.source_of_initialized belongs initialized).toHeld
        (c := pair.2) (by rw [isArray]; exact isElement) (by rw [isArray]; rfl)
      have literalNow : (r.node pair.2).isIdentifier = false := by
        rw [Program.node, ← Node.isIdentifier_tag, leads.tag source.allocated,
          Node.isIdentifier_tag]
        exact Tree.not_isIdentifier_of_isLiteralValue isLiteral
      have sourceNow := source.follows leads.toFollows
      refine .dereference leads.stay ?_
        ⟨sourceNow.toHeld, fun isOther => ⟨sourceNow.good isOther, literalNow⟩⟩
        (fun {id} before isMember within => ?_) fun before => ?_
      · rw [Program.node, ← Node.isMember_tag, leads.tag (Tree.allocated_of_isMember isMember),
          Node.isMember_tag]
        exact isMember
      · -- What lies in the member now has lain in it when the reads were planned.
        have now : r.isAttached id = true := by
          rw [isAttached_eq leads.rooted.linked leads.rooted.isTop.top] at attached ⊢
          exact leads.rooted.linked.isWithin_trans within attached
        rw [leads.remnant.isWithin_eq (isOld before) now,
          ← start.remnant.isWithin_eq (isOld before) (earlier before now)] at within
        rw [← start.remnant.isMember_eq (isOld before)] at isMember
        exact steady.linked.eq_of_isWithin_member shape isBase isKey isMember within
      · exact start.readOnly_of_references before (earlier before attached) shape
          (steady.sound.bindingOf?_of_reference belongs isReference)
          (isWriteTarget_of_access? steady.linked accesses)
  · exact .pure start.stay trivial

end ArrayRead

/-! ### Both rules -/

/-- A member that is replaced by what it reads is written at most as a target of a pattern, and the
same holds of all other members of its variable. -/
theorem Rule.inlines_reads {rule : Rule}
    (isRead : rule = .memberPropertyInlining ∨ rule = .arrayIndexInlining) (reached : p.Reached)
    (verified : p.verify = .ok ()) (wellBound : p.tree.WellBound)
    (sorted : p.tree.Sorted fun id => p.isAttached id = true) {changed : Bool} {w : Workspace}
    (ran : rule.run ⟨p, c⟩ = .ok changed w) {key : NodeId} {computed : Bool}
    (shape : p.node member = .member base key computed) (before : p.isAttached member = true)
    (replaced : w.program.isAttached member = false) :
    (p.tree.Written member → p.tree.IsTarget member) ∧ ∃ b, p.bindingOf? base = some b ∧
      ∀ other otherBase otherKey otherComputed, p.isAttached other = true →
        p.node other = .member otherBase otherKey otherComputed → p.bindingOf? otherBase = some b →
        p.tree.Written other → p.tree.IsTarget other := by
  have steady : p.Steady := ⟨reached.sound verified, wellBound⟩
  have along : Along p.Dereferenced p rule.run any := by
    rcases isRead with rfl | rfl
    · exact TableEntry.dereferences (.start steady sorted)
    · exact ArrayRead.dereferences (.start steady sorted)
  have result := along c
  rw [ran] at result
  have readOnly := result.1.readOnly before replaced (by rw [shape]; rfl)
  have isTarget {id : NodeId} (unwritten : p.tree.isWriteTarget id = false)
      (written : p.tree.Written id) :
      p.tree.IsTarget id :=
    (steady.linked.isWriteTarget_or_isTarget written).resolve_left (by rw [unwritten]; nofun)
  obtain ⟨b, belongs, others⟩ := readOnly.others shape
  exact ⟨isTarget readOnly.notWritten, b, belongs,
    fun other otherBase otherKey otherComputed attached found same =>
      isTarget (others attached found same)⟩

/-- The tree of `const t = { k: true }; [t.k] = x;` or of `const t = { k: true }; f(t.k, x);`. -/
def TableEntry.accessed (written : Bool) : Tree :=
  ⟨#[⟨.identifier "t", some ⟨5⟩⟩, ⟨.identifier "k", some ⟨3⟩⟩, ⟨.literal (.boolean true), some ⟨3⟩⟩,
    ⟨.property ⟨1⟩ ⟨2⟩ false, some ⟨4⟩⟩, ⟨.object [⟨3⟩], some ⟨5⟩⟩,
    ⟨.variableDeclarator ⟨0⟩ (some ⟨4⟩), some ⟨6⟩⟩, ⟨.variableDeclaration .const [⟨5⟩], some ⟨14⟩⟩,
    ⟨.identifier "t", some ⟨9⟩⟩, ⟨.identifier "k", some ⟨9⟩⟩,
    ⟨.member ⟨7⟩ ⟨8⟩ false, some (if written then ⟨10⟩ else ⟨12⟩)⟩,
    ⟨if written then .arrayPattern [⟨9⟩] else .identifier "f", some ⟨12⟩⟩,
    ⟨.identifier "x", some ⟨12⟩⟩,
    ⟨if written then .assignment .assign ⟨10⟩ ⟨11⟩ else .call ⟨10⟩ [⟨9⟩, ⟨11⟩], some ⟨13⟩⟩,
    ⟨.expressionStatement ⟨12⟩, some ⟨14⟩⟩, ⟨.program [⟨6⟩, ⟨13⟩], none⟩]⟩

/-- The member in it is a target of a pattern. -/
def TableEntry.destructured : Tree := accessed true

theorem TableEntry.linked_accessed (written : Bool) : (accessed written).Linked := by
  cases written <;> exact Tree.linked_of_checks (by decide)

theorem TableEntry.isTop_accessed (written : Bool) : (accessed written).IsTop ⟨14⟩ := by
  cases written <;> exact ⟨by decide, by decide⟩

theorem TableEntry.exists_found (written : Bool) :
    ∃ p, Program.ofTree (accessed written) ⟨14⟩ = .ok p ∧
      p.Steady ∧ p.tree = accessed written ∧ p.root = ⟨14⟩ ∧ found? p default ⟨9⟩ ⟨9⟩ = some ⟨2⟩ ∧
        ∃ b, p.bindingOf? ⟨7⟩ = some b := by
  have linked := linked_accessed written
  have isTop := isTop_accessed written
  obtain ⟨scopes, made, steady⟩ := Program.exists_steady (accessed written) ⟨14⟩ linked isTop
    (by cases written <;> exact Tree.wellBound_of_bindsWell (by decide)) rfl
  have means : ((accessed written).lexicon ⟨14⟩).meaning? ⟨7⟩ =
      some ⟨⟨14⟩, "t", .const, ⟨5⟩, ⟨0⟩⟩ := by
    cases written <;> decide
  have mentions : ∀ id ∈ (accessed written).descendants ⟨14⟩,
      ((accessed written).lexicon ⟨14⟩).meaning? id = some ⟨⟨14⟩, "t", .const, ⟨5⟩, ⟨0⟩⟩ →
        id = ⟨0⟩ ∨ id = ⟨7⟩ := by
    cases written <;> decide
  have unwritten := Program.not_writes_of_uses linked isTop (by cases written <;> decide)
    (by cases written <;> decide)
  set p : Program := ⟨accessed written, ⟨14⟩, scopes, false⟩ with isProgram
  have sound := steady.sound
  obtain ⟨binding, stands, noWrite, belongs⟩ := sound.exists_unwritten (unwritten _) means
  have used : p.usedBinding? ⟨7⟩ = some binding :=
    Option.filter_eq_some_iff.mpr ⟨belongs _ means, by simp [Program.binding, stands.identifier]⟩
  have initialized : p.initialized? binding = some (⟨5⟩, ⟨4⟩) :=
    Program.initialized?_of_stands stands rfl
  have constant : p.isConstantVariable binding = true :=
    (sound.isConstantVariable_eq stands noWrite).trans rfl
  have noWrites : p.hasMemberWrites binding = false := by
    refine List.any_eq_false.mpr fun reference isReference => ?_
    obtain ⟨isMeant, -⟩ := sound.meaning?_of_mem means (belongs _ means) (.inl isReference)
    have within := (Program.isWithin_root_of_meaning? sound.rooted isMeant).1
    rcases mentions reference ((linked.mem_descendants_iff isTop.allocated).mpr within)
      isMeant with rfl | rfl <;> cases written <;> exact Bool.false_ne_true
  refine ⟨p, made, steady, rfl, rfl, ?_, binding, belongs _ means⟩
  have isTable : table? p default ⟨9⟩ ⟨9⟩ = some ⟨4⟩ := by
    have same : table? p default ⟨9⟩ ⟨9⟩ = (p.usedBinding? ⟨7⟩).bind fun binding =>
        (p.initialized? binding).bind fun found =>
          if p.isConstantVariable binding &&
            !Context.isProtected default (p.binding binding).name && !p.hasMemberWrites binding &&
              p.tree.precedes found.1 ⟨9⟩ then some found.2 else none := rfl
    rw [same, used, Option.bind_some, initialized, Option.bind_some]
    dsimp only
    rw [constant, noWrites]
    cases written <;> rfl
  have same :
      found? p default ⟨9⟩ ⟨9⟩ =
        (table? p default ⟨9⟩ ⟨9⟩).bind fun table => p.tree.entryOf? table "k" := rfl
  rw [same, isTable]
  rfl

theorem TableEntry.exists_run (written : Bool) :
    ∃ p w b, Program.ofTree (accessed written) ⟨14⟩ = .ok p ∧
      p.Steady ∧ p.tree = accessed written ∧ p.bindingOf? ⟨7⟩ = some b ∧ p.isAttached ⟨9⟩ = true ∧
        runReads ⟨p, default⟩ = .ok true w ∧ w.program.isAttached ⟨9⟩ = false := by
  obtain ⟨⟨_, _, scopes, stale⟩, made, steady, rfl, rfl, isFound, b, belongs⟩ :=
    exists_found written
  set p : Program := ⟨accessed written, ⟨14⟩, scopes, stale⟩ with isProgram
  have linked := steady.linked
  have attached : p.tree.isWithin ⟨9⟩ p.root = true := by cases written <;> rfl
  have isAttached : p.isAttached ⟨9⟩ = true := by cases written <;> rfl
  have notRoot : (⟨9⟩ : NodeId) ≠ ⟨14⟩ := by decide
  -- A copy of the entry takes the place of the member.
  have building :=
    Tree.makes_copy ⟨2⟩ p.tree [] p.tree (.start linked steady.wellBound steady.nonempty)
  have loose := building.loose _ (List.mem_cons_self ..)
  have grownSteady := (steady.grow building).1
  obtain ⟨after, done, -⟩ := Program.Keeps.replace grownSteady.sound loose.allocated
    (steady.replaceable building attached notRoot)
  have replaced := Program.Replaced.of_replace grownSteady.sound loose.allocated done
  have loses := replaced.loses linked steady.isTop building.grows loose.new
  have rooted := (grownSteady.sound.rooted.of_replace loose.allocated done).1.rooted
  have gone : after.isAttached ⟨9⟩ = false := by
    rw [Program.isAttached_eq rooted.linked rooted.isTop.top, Bool.eq_false_iff]
    intro still
    have apart :=
      (loses.lost (linked.allocated_of_isWithin attached steady.isTop.allocated) still).2
    rw [Tree.isWithin_self] at apart
    cases apart
  obtain ⟨c, recorded⟩ := replaceAndRecord_eq (c := default) .propertyInlined "" done
  have read : readStep ⟨9⟩ ⟨p, default⟩ = .ok true ⟨after, c⟩ := by
    have value : (if p.tree.isWriteTarget ⟨9⟩ then none
        else (found? p default ⟨9⟩ ⟨9⟩).filter (isCopyable p ⟨9⟩)) = some ⟨2⟩ := by
      rw [isFound]
      cases written <;> rfl
    rw [readStep, program_bind, context_bind]
    dsimp only
    rw [value]
    dsimp only
    rw [build_bind]
    exact bind_of_ok _ recorded
  have members : p.nodes.filter (isNamedMember p) = [⟨9⟩] := by cases written <;> rfl
  have once : ifAttached ⟨9⟩ (readStep ⟨9⟩) ⟨p, default⟩ = .ok true ⟨after, c⟩ := by
    rw [ifAttached, program_bind, if_pos isAttached, read]
  refine ⟨p, ⟨after, c⟩, b, made, steady, rfl, belongs, isAttached, ?_, gone⟩
  rw [runReads, visit, nodesWhere_bind, members, anyChange_cons, bind_of_ok _ once]
  rfl

/-- An argument is replaced by the entry that it reads. -/
theorem Rule.exists_inlines_reads :
    ∃ p w b, Program.ofTree (TableEntry.accessed false) ⟨14⟩ = .ok p ∧
      p.isAttached ⟨9⟩ = true ∧ run .memberPropertyInlining ⟨p, default⟩ = .ok true w ∧
        w.program.isAttached ⟨9⟩ = false ∧ ¬p.tree.Written ⟨9⟩ ∧ p.bindingOf? ⟨7⟩ = some b := by
  obtain ⟨p, w, b, made, steady, isTree, belongs, attached, ran, gone⟩ :=
    TableEntry.exists_run false
  have linked := TableEntry.linked_accessed false
  have sorted := steady.sound.rooted.sorted_of_isSorted
    (by rw [isTree]; exact (show (TableEntry.accessed false).isSorted = true by decide))
  have shape : p.node ⟨9⟩ = .member ⟨7⟩ ⟨8⟩ false := by
    rw [Program.node, isTree]
    rfl
  have isTarget :=
    (inlines_reads (.inl rfl) (.made linked (TableEntry.isTop_accessed false) made)
      steady.sound.verify steady.wellBound sorted ran shape attached gone).1
  refine ⟨p, w, b, made, attached, ran, gone, fun written => ?_, belongs⟩
  -- What holds the member is a call.
  obtain ⟨pattern, member⟩ := isTarget written
  rw [isTree] at member
  have held := linked.parent?_of_mem_part member
  cases (show some (⟨12⟩ : NodeId) = some pattern from held)
  cases member

/-- A member that is written in a pattern is replaced by its value. -/
theorem Rule.exists_inlines_written : ∃ p w, Program.ofTree TableEntry.destructured ⟨14⟩ = .ok p ∧
    p.tree.Written ⟨9⟩ ∧ p.isAttached ⟨9⟩ = true ∧
      run .memberPropertyInlining ⟨p, default⟩ = .ok true w ∧
        w.program.isAttached ⟨9⟩ = false := by
  obtain ⟨p, w, b, made, -, isTree, -, attached, ran, gone⟩ := TableEntry.exists_run true
  have written : p.tree.Written ⟨9⟩ := by
    rw [isTree]
    have pattern : TableEntry.destructured.node ⟨10⟩ = .arrayPattern [⟨9⟩] := rfl
    have assignment : TableEntry.destructured.node ⟨12⟩ = .assignment .assign ⟨10⟩ ⟨11⟩ := rfl
    exact .element pattern (List.mem_singleton_self _) (.assigned assignment)
  exact ⟨p, w, made, written, attached, ran, gone⟩

end Unravel
