import Unravel.Proofs.Program.Recomposed
import Unravel.Proofs.Simplify.DeclaratorWeight

/-!
What becomes of marshalled names. A run goes through the groups of marshalled declarators one by
one: the declarators of a group go away, and every use of its name comes to stand for what its value
is encoded as (`Program.Steady.unwraps_names`). So a use stands for its own value if no name that
comes later is spelled like this value, but not in any case (`Rule.exists_unwrapped_twice`).
-/

namespace Unravel

open SimplifyM

namespace SimplifyM.Surely

open Program

variable {p : Program} {leaf : Node NodeId} {site : NodeId} {uses : List NodeId}

/-! ### Loops over uses and declarators -/

theorem put (steady : p.Steady) (childless : leaf.children = []) (silent : leaf.isSilent = true)
    (attached : p.isAttached site = true) (isIdentifier : (p.node site).isIdentifier = true)
    (isUse : (p.tree.role site).isUse = true) :
    Surely p (do discard (SimplifyM.replace site (← SimplifyM.build (Tree.alloc leaf)))) fun _ q =>
      ∃ piece grown, p.Rewording site piece grown q ∧ grown.node piece = leaf := by
  intro c
  obtain ⟨piece, grown, after, rewording, isLeaf, ran⟩ :=
    steady.exists_put childless silent attached isIdentifier isUse c
  rw [ran]
  exact ⟨rewording.afterSteady, rewording.leads, piece, grown, rewording, isLeaf⟩

theorem refill (steady : p.Steady) (childless : leaf.children = []) (silent : leaf.isSilent = true)
    (distinct : uses.Nodup) (each : ∀ use ∈ uses, p.isAttached use = true ∧
      (p.node use).isIdentifier = true ∧ (p.tree.role use).isUse = true) :
    Surely p (forIn uses PUnit.unit fun use _ => do
        discard (SimplifyM.replace use (← SimplifyM.build (Tree.alloc leaf)))
        return ForInStep.yield PUnit.unit)
      fun _ q => ∃ becomes, p.Fills q (· ∈ uses) leaf becomes := by
  have rooted := steady.sound.rooted
  refine .mono (.forIn_rest (fun rest q => rest.Nodup ∧
    ∃ becomes, p.Fills q (fun id => id ∈ uses ∧ id ∉ rest) leaf becomes) steady
      ⟨distinct, _, .start p leaf fun _ isUse => isUse.2 isUse.1⟩
      fun use rest q member steadyThen _ kept => ?_)
    fun _ q done => done.2.imp fun becomes fills => fills.congr fun id => by simp
  obtain ⟨distinct, becomes, fills⟩ := kept
  obtain ⟨notRest, distinct⟩ := List.nodup_cons.mp distinct
  have notYet : ¬(use ∈ uses ∧ use ∉ use :: rest) := fun isDone => isDone.2 (List.mem_cons_self ..)
  obtain ⟨attached, isIdentifier, isUse⟩ := each use member
  obtain ⟨-, isLeft⟩ := fills.unused attached notYet
  have placed :=
    put steadyThen childless silent isLeft
      (by rwa [Node.isIdentifier, fills.identifier? attached isLeft])
      (by rwa [fills.role attached isLeft])
  have same (id : NodeId) : id ∈ uses ∧ id ∉ rest ↔ id = use ∨ (id ∈ uses ∧ id ∉ use :: rest) := by
    by_cases isSite : id = use
    · simp [isSite, member, notRest]
    · simp [isSite]
  have step :
      Surely q
        ((do discard (SimplifyM.replace use (← SimplifyM.build (Tree.alloc leaf)))) >>= fun _ =>
          Pure.pure (ForInStep.yield PUnit.unit)) (goesOn fun r => rest.Nodup ∧
            ∃ becomes, p.Fills r (fun id => id ∈ uses ∧ id ∉ rest) leaf becomes) := by
    refine placed.bind fun _ r steadyAfter _ reworded => ?_
    obtain ⟨piece, grown, rewording, isLeaf⟩ := reworded
    exact .pure steadyAfter ⟨rfl, distinct, _,
      (fills.put rooted childless attached notYet rewording isLeaf).congr same⟩
  rwa [bind_assoc] at step

end SimplifyM.Surely

namespace Marshal

variable {p q r : Program} {ids others : List NodeId} {mode : MarshalMode}

theorem allocated_of_isSole (linked : p.tree.Linked) (isTop : p.tree.IsTop p.root) {id : NodeId}
    (sole : IsSole p id) :
    p.tree.Allocated id :=
  linked.allocated_of_isWithin sole.1.attached isTop.allocated

theorem surely_rid (steady : p.Steady) (distinct : ids.Nodup) (sole : ∀ id ∈ ids, IsSole p id) :
    Surely p (forIn ids PUnit.unit fun declarator _ => do
        if (← SimplifyM.program).isAttached declarator then
          SimplifyM.remove declarator
          return ForInStep.yield PUnit.unit
        else return ForInStep.yield PUnit.unit)
      fun _ q => ∃ becomes, p.Rids q ids becomes := by
  have isOld (id : NodeId) (member : id ∈ ids) : p.tree.Allocated id :=
    allocated_of_isSole steady.linked steady.isTop (sole id member)
  refine .mono (.forIn_rest (fun rest q => rest.Nodup ∧ (∀ id ∈ rest, IsSole q id) ∧
    ∃ before becomes, ids = before ++ rest ∧ p.Rids q before becomes) steady
      ⟨distinct, sole, [], _, rfl, .start p⟩
      fun declarator rest q _ steadyThen _ kept => .program ?_)
    fun _ _ ⟨_, _, before, becomes, same, rids⟩ => ⟨becomes, by rwa [same, List.append_nil]⟩
  obtain ⟨distinct, sole, before, becomes, same, rids⟩ := kept
  obtain ⟨notRest, distinct⟩ := List.nodup_cons.mp distinct
  obtain ⟨⟨declares, light⟩, others⟩ := List.forall_mem_cons.mp sole
  obtain ⟨declaration, held, isDeclaration⟩ := declares.held
  obtain ⟨kind, declarators, shape⟩ := Node.exists_of_isVariableDeclaration isDeclaration
  have removable := (steadyThen.removable_declarator declares.attached held shape).1
  rw [if_pos
    (by rw [Program.isAttached_eq steadyThen.linked steadyThen.isTop.top, declares.attached])]
  refine .bind ((declares.remove steadyThen).and (Surely.remove steadyThen removable))
    fun _ r steadyAfter _ ⟨⟨_, relieves, keeps⟩, taken, _⟩ => ?_
  have same : ids = (before ++ [declarator]) ++ rest := by
    rw [same, List.append_assoc, List.singleton_append]
  obtain ⟨further, last⟩ := rids.take steady steadyThen steadyAfter
    (fun id member => isOld id (same ▸ List.mem_append_left _ member)) taken
  refine .pure steadyAfter ⟨rfl, distinct, fun id member => ?_, before ++ [declarator],
    further, same, last⟩
  obtain ⟨another, isLight⟩ := others id member
  have isAllocated := allocated_of_isSole steadyThen.linked steadyThen.isTop (others id member)
  exact ⟨keeps light id another (fun same => notRest (same ▸ member)),
    (relieves isAllocated).trans isLight⟩

/-! ### What names come to stand for -/

/-- What a value is encoded as. -/
def leaf : MarshalMode → String → Node NodeId
  | .literal, value => .literal (.string value none)
  | .identifier, value => .identifier value

theorem encoded_eq (mode : MarshalMode) (value : String) :
    encoded mode value = Tree.alloc (leaf mode value) := by
  cases mode <;> rfl

theorem leaf_plain (mode : MarshalMode) (value : String) :
    (leaf mode value).children = [] ∧ (leaf mode value).isSilent = true := by
  cases mode <;> exact ⟨rfl, rfl⟩

/-- A value is put in the place of its name. -/
def put (mode : MarshalMode) (node : Node NodeId) (plan : String × String) : Node NodeId :=
  if node.identifier? = some plan.1 then leaf mode plan.2 else node

theorem put_self (mode : MarshalMode) (name value : String) :
    put mode (.identifier name) (name, value) = leaf mode value :=
  if_pos rfl

/--
What a name comes to stand for when values are put in the places of their names one after the other.
-/
def settled (mode : MarshalMode) (plans : List (String × String)) (name : String) : Node NodeId :=
  plans.foldl (put mode) (.identifier name)

variable {plans : List (String × String)} {name value : String}

theorem foldl_put_of_notMem {node : Node NodeId}
    (absent : ∀ plan ∈ plans, node.identifier? ≠ some plan.1) :
    plans.foldl (put mode) node = node := by
  induction plans with
  | nil => rfl
  | cons plan rest induction =>
    obtain ⟨notHead, notRest⟩ := List.forall_mem_cons.mp absent
    rw [List.foldl_cons, put, if_neg notHead, induction notRest]

theorem settled_of_notMem (absent : name ∉ plans.map (·.1)) :
    settled mode plans name = .identifier name :=
  foldl_put_of_notMem fun plan member same =>
    absent (List.mem_map.mpr ⟨plan, member, (Option.some.inj same).symm⟩)

theorem settled_append (mode : MarshalMode) (plans morePlans : List (String × String))
    (name : String) :
    settled mode (plans ++ morePlans) name = morePlans.foldl (put mode) (settled mode plans name) :=
  List.foldl_append

theorem settled_cases (mode : MarshalMode) (plans : List (String × String)) (name : String) :
    (∃ text, settled mode plans name = .identifier text) ∨
      ∃ text, settled mode plans name = .literal (.string text none) := by
  refine List.foldlRecOn (motive := fun node => (∃ text, node = .identifier text) ∨
    ∃ text, node = .literal (.string text none)) plans (put mode) (.inl ⟨name, rfl⟩)
    fun node cases plan _ => ?_
  rw [put]
  split
  · cases mode
    · exact .inr ⟨plan.2, rfl⟩
    · exact .inl ⟨plan.2, rfl⟩
  · exact cases

/--
A name comes to stand for its own value unless that is spelled like a name that is still to come. -/
theorem settled_of_apart {before behind : List (String × String)}
    (first : name ∉ before.map (·.1)) (apart : mode = .literal ∨ ∀ plan ∈ behind, plan.1 ≠ value) :
    settled mode (before ++ (name, value) :: behind) name = leaf mode value := by
  rw [settled, List.foldl_append,
    show before.foldl (put mode) (.identifier name) = .identifier name from settled_of_notMem first,
    List.foldl_cons, put_self]
  refine foldl_put_of_notMem fun plan member same => ?_
  rcases apart with rfl | apart
  · cases same
  · cases mode
    · cases same
    · exact apart plan member (Option.some.inj same).symm

/--
Declarators have gone away, and the values of names have been put in the places of their uses. -/
structure Unwraps (p q : Program) (mode : MarshalMode) (ids : List NodeId)
    (plans : List (String × String)) (becomes : NodeId → List NodeId) : Prop extends
    p.Recomposed q becomes where
  gone : ∀ id ∈ ids, q.isAttached id = false
  read : ∀ {id name}, p.isAttached id = true → (∀ d ∈ ids, p.tree.isWithin id d = false) →
    p.tree.role id = .reference → (p.node id).identifier? = some name →
      ∃ new, becomes id = [new] ∧ q.isAttached new = true ∧ q.node new = settled mode plans name ∧
        (new = id ↔ name ∉ plans.map (·.1))
  other : ∀ {id}, p.isAttached id = true → (∀ d ∈ ids, p.tree.isWithin id d = false) →
    (p.node id).isVariableDeclaration = false →
    (p.tree.role id = .reference → (p.node id).identifier? = none) →
      becomes id = [id] ∧ q.isAttached id = true

namespace Unwraps

variable {moreIds : List NodeId} {morePlans : List (String × String)}
  {becomes next : NodeId → List NodeId}

theorem start (p : Program) (mode : MarshalMode) : Unwraps p p mode [] [] fun id => [id] where
  toRecomposed := .refl p
  gone := nofun
  read {id _} attached _ _ spelled := ⟨id, rfl, attached, Node.eq_identifier spelled, by simp⟩
  other attached _ _ _ := ⟨rfl, attached⟩

theorem of_rids (rids : p.Rids q ids becomes)
    (fills : q.Fills r (· ∈ reads q name) (leaf mode value) next) (steady : p.Steady)
    (between : q.Steady) (isOld : ∀ id ∈ ids, p.tree.Allocated id) :
    Unwraps p r mode ids [(name, value)] fun id => (becomes id).flatMap next := by
  have rooted := steady.sound.rooted
  have recomposed := rids.trans rooted fills.toRecomposed
  have isRead {id : NodeId} (isLeft : q.isAttached id = true) : id ∈ reads q name ↔
      (q.node id).identifier? = some name ∧ q.tree.role id = .reference := by
    rw [Program.isAttached_eq between.linked between.isTop.top] at isLeft
    rw [reads, List.mem_filter, Tree.identifiersNamed, List.mem_filter, decide_eq_true_eq,
      between.linked.mem_descendants_iff between.isTop.allocated, Node.isIdentifierNamed,
      decide_eq_true_eq]
    simp [isLeft, Program.node]
  refine ⟨recomposed, fun id member => ?_, fun {id text} attached outside isReference spelled => ?_,
    fun {id} attached outside notDeclaration notRead => ?_⟩
  · rw [Bool.eq_false_iff]
    intro still
    have isLeft := fills.back (rids.allocated (isOld id member)) still
    rw [rids.gone id member] at isLeft
    cases isLeft
  · have notDeclaration : (p.node id).isVariableDeclaration = false := by
      rw [Node.eq_identifier spelled]
      rfl
    obtain ⟨alone, isLeft⟩ := rids.kept attached notDeclaration outside
    have spelledThen := (rids.identifier? attached isLeft).trans spelled
    have roleThen := (rids.role attached isLeft).trans isReference
    by_cases isName : text = name
    · subst isName
      obtain ⟨new, aloneAfter, isNew, placed, isLeaf⟩ := fills.used isLeft
        ((isRead isLeft).mpr ⟨spelledThen, roleThen⟩)
      refine ⟨new, by rw [alone, List.flatMap_singleton, aloneAfter], placed, ?_,
        iff_of_false ?_ (by simp)⟩
      · rw [isLeaf, settled, List.foldl_cons, List.foldl_nil, put_self]
      · rintro rfl
        exact isNew (rids.allocated (rooted.allocated_of_isAttached attached))
    · obtain ⟨aloneAfter, placed⟩ := fills.unused isLeft fun isUse =>
        isName (Option.some.inj (spelledThen.symm.trans ((isRead isLeft).mp isUse).1))
      have absent : text ∉ [(name, value)].map (·.1) := by simpa using isName
      refine ⟨id, by rw [alone, List.flatMap_singleton, aloneAfter], placed, ?_,
        iff_of_true rfl absent⟩
      rw [settled_of_notMem absent]
      exact Node.eq_identifier ((recomposed.identifier? attached placed).trans spelled)
  · obtain ⟨alone, isLeft⟩ := rids.kept attached notDeclaration outside
    obtain ⟨aloneAfter, placed⟩ := fills.unused isLeft fun isUse => by
      obtain ⟨spelled, isReference⟩ := (isRead isLeft).mp isUse
      rw [rids.identifier? attached isLeft,
        notRead ((rids.role attached isLeft).symm.trans isReference)] at spelled
      cases spelled
    exact ⟨by rw [alone, List.flatMap_singleton, aloneAfter], placed⟩

variable (unwraps : Unwraps p q mode ids plans becomes)

include unwraps

theorem outside_after (rooted : p.Rooted) (afterRooted : q.Rooted) {id new : NodeId}
    (attached : p.isAttached id = true) (member : new ∈ becomes id)
    (isLeft : q.isAttached new = true) (isOld : ∀ d ∈ moreIds, p.tree.Allocated d)
    (outside : ∀ d ∈ moreIds, p.tree.isWithin id d = false) :
    ∀ d ∈ moreIds, q.tree.isWithin new d = false := by
  intro d isLater
  rw [Bool.eq_false_iff]
  intro within
  have above := unwraps.isWithin_above rooted afterRooted attached member isLeft
    (isOld d isLater) within
  rw [outside d isLater] at above
  cases above

theorem trans (further : Unwraps q r mode moreIds morePlans next) (steady : p.Steady)
    (between : q.Steady) (isOld : ∀ d ∈ ids ++ moreIds, p.tree.Allocated d) :
    Unwraps p r mode (ids ++ moreIds) (plans ++ morePlans) fun id => (becomes id).flatMap next := by
  have rooted := steady.sound.rooted
  have recomposed := unwraps.toRecomposed.trans rooted further.toRecomposed
  have outsideThen {id new : NodeId} (attached : p.isAttached id = true)
      (alone : becomes id = [new]) (isLeft : q.isAttached new = true)
      (outside : ∀ d ∈ ids ++ moreIds, p.tree.isWithin id d = false) :=
    unwraps.outside_after rooted between.sound.rooted attached
      (by rw [alone]; exact List.mem_singleton_self _) isLeft
      (fun d (member : d ∈ moreIds) => isOld d (List.mem_append_right _ member))
      fun d member => outside d (List.mem_append_right _ member)
  refine ⟨recomposed, fun id member => ?_, fun {id name} attached outside isReference spelled => ?_,
    fun {id} attached outside notDeclaration notRead => ?_⟩
  · rcases List.mem_append.mp member with isFirst | isLater
    · rw [Bool.eq_false_iff]
      intro still
      have isLeft := further.back (unwraps.allocated (isOld id member)) still
      rw [unwraps.gone id isFirst] at isLeft
      cases isLeft
    · exact further.gone id isLater
  · obtain ⟨new, alone, isLeft, isSettled, same⟩ := unwraps.read attached (fun d member =>
      outside d (List.mem_append_left _ member)) isReference spelled
    have outsideNew := outsideThen attached alone isLeft outside
    have roleNew :=
      (unwraps.place attached (by rw [alone]; exact List.mem_singleton_self _) isLeft).2.trans
        isReference
    have isNew : new ≠ id → ¬p.tree.Allocated new := fun different =>
      ((unwraps.fresh (by rw [alone]; exact List.mem_singleton_self _)).resolve_left different).1
    rcases settled_cases mode plans name with ⟨text, isText⟩ | ⟨text, isText⟩
    · -- The new node is an identifier again, which may be unwrapped in its turn.
      have spelledNew : (q.node new).identifier? = some text := by
        rw [isSettled, isText, Node.identifier?]
      obtain ⟨last, aloneAfter, placed, isLast, sameLast⟩ := further.read isLeft outsideNew
        roleNew spelledNew
      refine ⟨last, by rw [alone, List.flatMap_singleton, aloneAfter], placed, ?_, ?_⟩
      · rw [isLast, settled_append, isText, settled]
      · rw [List.map_append, List.mem_append, not_or]
        by_cases isId : new = id
        · subst isId
          have sameText : text = name :=
            Option.some.inj
              (spelledNew.symm.trans ((unwraps.identifier? attached isLeft).trans spelled))
          rw [sameLast, sameText, and_iff_right (same.mp rfl)]
        · refine iff_of_false ?_ fun absent => isId (same.mpr absent.1)
          rintro rfl
          have isOldLast := unwraps.allocated (rooted.allocated_of_isAttached attached)
          rcases further.fresh (by rw [aloneAfter]; exact List.mem_singleton_self _) with
            itself | ⟨isFresh, -⟩
          · exact isId itself.symm
          · exact isFresh isOldLast
    · have notId : new ≠ id := fun isId => by
        rw [settled_of_notMem (same.mp isId)] at isText
        cases isText
      obtain ⟨aloneAfter, placed⟩ := further.other isLeft outsideNew
        (by rw [isSettled, isText]; rfl) fun _ => by rw [isSettled, isText]; rfl
      refine ⟨new, by rw [alone, List.flatMap_singleton, aloneAfter], placed, ?_,
        iff_of_false notId fun absent =>
          notId (same.mpr fun member => absent (by simp [member]))⟩
      have tag := (further.node isLeft placed).tag
      rw [settled_append, isText, foldl_put_of_notMem fun _ _ same => by cases same]
      rw [isSettled, isText] at tag
      exact Node.eq_literal tag
  · obtain ⟨alone, isLeft⟩ := unwraps.other attached
      (fun d member => outside d (List.mem_append_left _ member)) notDeclaration notRead
    obtain ⟨aloneAfter, placed⟩ := further.other isLeft (outsideThen attached alone isLeft outside)
      (by
      rw [← Node.isVariableDeclaration_tag, (unwraps.node attached isLeft).tag,
        Node.isVariableDeclaration_tag, notDeclaration]) fun isReference => by
        rw [unwraps.identifier? attached isLeft,
          notRead ((unwraps.role attached isLeft).symm.trans isReference)]
    exact ⟨by rw [alone, List.flatMap_singleton, aloneAfter], placed⟩

end Unwraps

/-! ### Groups -/

/-- What a search for marshalled declarators has found: groups of different names, which share the
declarators that have been met among themselves. -/
structure Grouped (p : Program) (function : String) (met : List NodeId)
    (found : List Group) : Prop where
  distinct : (found.map (·.name)).Nodup
  agrees :
    ∀ group ∈ found,
      ∀ d ∈ group.declarators, ∃ value, marshalled? p function d = some (group.name, value) ∧
        ∀ known, group.value = some known → value = known
  covers : ∀ d ∈ met, ∀ name value, marshalled? p function d = some (name, value) →
    ∃ group ∈ found, group.name = name ∧ d ∈ group.declarators

theorem addTo_cases (d : NodeId) (name value : String) (found : List Group) :
    (∃ front group back, found = front ++ group :: back ∧ group.name = name ∧
      addTo d name value found =
        front ++
          { group with
            value := group.value.filter (· = value), declarators := group.declarators ++ [d] } ::
              back) ∨
    ((∀ group ∈ found, group.name ≠ name) ∧
      addTo d name value found = found ++ [⟨name, some value, [d]⟩]) := by
  induction found with
  | nil => exact .inr ⟨nofun, rfl⟩
  | cons group rest induction =>
    rw [addTo]
    split
    · rename_i isName
      exact .inl ⟨[], group, rest, rfl, isName, rfl⟩
    · rename_i notName
      rcases induction with ⟨front, found, back, rfl, isName, same⟩ | ⟨absent, same⟩
      · exact .inl ⟨group :: front, found, back, rfl, isName, by rw [same, List.cons_append]⟩
      · exact .inr ⟨List.forall_mem_cons.mpr ⟨notName, absent⟩, by rw [same, List.cons_append]⟩

variable {function : String} {met : List NodeId} {found : List Group} {d : NodeId}

namespace Grouped

theorem start (p : Program) (function : String) : Grouped p function [] [] := ⟨.nil, nofun, nofun⟩

variable (grouped : Grouped p function met found)

include grouped

theorem skip (isOther : marshalled? p function d = none) :
    Grouped p function (met ++ [d]) found where
  distinct := grouped.distinct
  agrees := grouped.agrees
  covers other member name value isMarshalled := by
    rcases List.mem_append.mp member with isMet | isLast
    · exact grouped.covers other isMet name value isMarshalled
    · rw [List.mem_singleton.mp isLast, isOther] at isMarshalled
      cases isMarshalled

theorem add (isMarshalled : marshalled? p function d = some (name, value)) :
    Grouped p function (met ++ [d]) (addTo d name value found) := by
  have isLast {other : NodeId} {text known : String} (member : other ∈ [d])
      (made : marshalled? p function other = some (text, known)) : other = d ∧ text = name ∧
        known = value := by
    rw [List.mem_singleton.mp member, isMarshalled] at made
    cases made
    exact ⟨List.mem_singleton.mp member, rfl, rfl⟩
  have agrees := grouped.agrees
  rcases addTo_cases d name value found with ⟨front, group, back, rfl, rfl, same⟩ |
    ⟨absent, same⟩ <;> rw [same]
  · rw [List.forall_mem_append, List.forall_mem_cons] at agrees
    refine ⟨by simpa using grouped.distinct, ?_, fun e member text known made => ?_⟩
    · rw [List.forall_mem_append, List.forall_mem_cons]
      refine ⟨agrees.1, fun e isDeclared => ?_, agrees.2.2⟩
      rcases List.mem_append.mp isDeclared with isOlder | isNew
      · obtain ⟨known, made, unique⟩ := agrees.2.1 e isOlder
        exact ⟨known, made,
          fun value single => unique value (Option.filter_eq_some_iff.mp single).1⟩
      · refine ⟨value, by rw [List.mem_singleton.mp isNew, isMarshalled], fun known single => ?_⟩
        exact (of_decide_eq_true (Option.filter_eq_some_iff.mp single).2).symm
    · rcases List.mem_append.mp member with isMet | isNew
      · obtain ⟨holder, isGroup, isName, isDeclared⟩ := grouped.covers e isMet text known made
        rcases List.mem_append.mp isGroup with inFront | inBack
        · exact ⟨holder, List.mem_append_left _ inFront, isName, isDeclared⟩
        · rcases List.mem_cons.mp inBack with rfl | inBack
          · exact ⟨_, List.mem_append_right _ (List.mem_cons_self ..), isName,
              List.mem_append_left _ isDeclared⟩
          · exact ⟨holder, List.mem_append_right _ (List.mem_cons_of_mem _ inBack),
              isName, isDeclared⟩
      · obtain ⟨rfl, rfl, -⟩ := isLast isNew made
        exact ⟨_, List.mem_append_right _ (List.mem_cons_self ..), rfl,
          List.mem_append_right _ isNew⟩
  · refine ⟨?_, ?_, fun e member text known made => ?_⟩
    · rw [List.map_append, List.map_singleton, List.nodup_append]
      refine ⟨grouped.distinct, List.nodup_singleton _, fun text isOther other isNew same => ?_⟩
      obtain ⟨holder, isGroup, isName⟩ := List.mem_map.mp isOther
      exact absent holder isGroup (isName.trans (same.trans (List.mem_singleton.mp isNew)))
    · rw [List.forall_mem_append, List.forall_mem_singleton]
      refine ⟨agrees, fun e isNew => ⟨value, ?_, fun known single => Option.some.inj single⟩⟩
      rw [List.mem_singleton.mp isNew, isMarshalled]
    · rcases List.mem_append.mp member with isMet | isNew
      · obtain ⟨holder, isGroup, rest⟩ := grouped.covers e isMet text known made
        exact ⟨holder, List.mem_append_left _ isGroup, rest⟩
      · obtain ⟨rfl, rfl, -⟩ := isLast isNew made
        exact ⟨_, List.mem_append_right _ (List.mem_singleton_self _), rfl, isNew⟩

theorem collect (nodes : List NodeId) :
    Grouped p function (met ++ nodes) (nodes.foldl (collect p function) found) := by
  induction nodes generalizing met found with
  | nil => rwa [List.append_nil]
  | cons d rest induction =>
    rw [List.append_cons, List.foldl_cons, Marshal.collect]
    cases isMarshalled : marshalled? p function d with
    | none => exact induction (grouped.skip isMarshalled)
    | some result => exact induction (grouped.add isMarshalled)

end Grouped

theorem grouped_groups (p : Program) (function : String) :
    Grouped p function p.nodes (groups p function) :=
  (Grouped.start p function).collect p.nodes

/-- The names that a run unwraps, each with its value. -/
def unwrapped (c : Context) (mode : MarshalMode) (groups : List Group) : List (String × String) :=
  groups.filterMap fun group => (group.plan? c mode).map (group.name, ·)

/-- The declarators that a run takes away. -/
def spent (c : Context) (mode : MarshalMode) (groups : List Group) : List NodeId :=
  groups.flatMap fun group => if (group.plan? c mode).isSome then group.declarators else []

variable {c : Context} {group : Group}

theorem spent_subset (c : Context) (mode : MarshalMode) (groups : List Group) :
    spent c mode groups ⊆ groups.flatMap (·.declarators) := by
  intro d member
  obtain ⟨group, isGroup, isDeclared⟩ := List.mem_flatMap.mp member
  refine List.mem_flatMap.mpr ⟨group, isGroup, ?_⟩
  split at isDeclared
  · exact isDeclared
  · cases isDeclared

theorem mem_spent {known : String} (isNode : d ∈ p.nodes)
    (isMarshalled : marshalled? p function d = some (name, known))
    (isPlan : (name, value) ∈ unwrapped c mode (groups p function)) :
    known = value ∧ d ∈ spent c mode (groups p function) := by
  have grouped := grouped_groups p function
  obtain ⟨group, isGroup, made⟩ := List.mem_filterMap.mp isPlan
  obtain ⟨text, planned, isPair⟩ := Option.map_eq_some_iff.mp made
  obtain ⟨rfl, rfl⟩ := Prod.mk.inj isPair
  obtain ⟨holder, isHolder, sameName, isDeclared⟩ := grouped.covers d isNode _ _ isMarshalled
  obtain rfl := List.inj_on_of_nodup_map grouped.distinct isHolder isGroup sameName
  obtain ⟨text, made, unique⟩ := grouped.agrees holder isHolder d isDeclared
  rw [isMarshalled] at made
  cases made
  refine ⟨unique _ (Option.filter_eq_some_iff.mp planned).1,
    List.mem_flatMap.mpr ⟨holder, isHolder, ?_⟩⟩
  rw [planned]
  exact isDeclared

theorem names_sublist (c : Context) (mode : MarshalMode) (groups : List Group) :
    ((unwrapped c mode groups).map (·.1)).Sublist (groups.map (·.name)) := by
  induction groups with
  | nil => exact .slnil
  | cons group rest induction =>
    rw [unwrapped, List.filterMap_cons]
    cases group.plan? c mode with
    | none => exact induction.cons _
    | some value => exact induction.cons_cons _

theorem nodup_unwrapped (p : Program) (function : String) (c : Context) (mode : MarshalMode) :
    ((unwrapped c mode (groups p function)).map (·.1)).Nodup :=
  (grouped_groups p function).distinct.sublist (names_sublist c mode _)

/-! ### Runs -/

theorem surely_unwrapGroup (steady : p.Steady) (distinct : group.declarators.Nodup)
    (sole : ∀ id ∈ group.declarators, IsSole p id) :
    Surely p (unwrapGroup mode group value) fun _ q =>
      ∃ becomes, Unwraps p q mode group.declarators [(group.name, value)] becomes := by
  refine .bind (surely_rid steady distinct sole) fun _ q between leads isRid => .program ?_
  obtain ⟨becomes, rids⟩ := isRid
  have isUse (use : NodeId) (member : use ∈ reads q group.name) : q.isAttached use = true ∧
      (q.node use).isIdentifier = true ∧ (q.tree.role use).isUse = true := by
    have fillable := fillable_of_mem_reads between member
    rw [reads, List.mem_filter, decide_eq_true_eq] at member
    refine ⟨?_, fillable.isIdentifier, by rw [member.2]; rfl⟩
    rw [Program.isAttached_eq between.linked between.isTop.top, fillable.attached]
  have distinctReads : (reads q group.name).Nodup :=
    ((between.linked.nodup_descendants between.isTop.allocated).filter _).filter _
  obtain ⟨childless, silent⟩ := leaf_plain mode value
  simp only [encoded_eq]
  refine .bind (Surely.refill between childless silent distinctReads isUse)
    fun _ r after _ isFilled => ?_
  obtain ⟨next, fills⟩ := isFilled
  have isOld (id : NodeId) (member : id ∈ group.declarators) : p.tree.Allocated id :=
    allocated_of_isSole steady.linked steady.isTop (sole id member)
  refine .mono (.log _ after) fun _ _ same => ?_
  subst same
  exact ⟨_, .of_rids rids fills steady between isOld⟩

theorem surely_unwraps (steady : p.Steady) (function : String) (mode : MarshalMode) (c : Context) :
    Surely p (SimplifyM.anyChange (groups p function) fun group => do
        match group.plan? c mode with
        | none => return false
        | some value =>
          unwrapGroup mode group value
          return true)
      fun _ q => ∃ becomes, Unwraps p q mode (spent c mode (groups p function))
        (unwrapped c mode (groups p function)) becomes := by
  obtain ⟨shared, nonempty⟩ := perm_groups p function
  have distinct : ((groups p function).flatMap (·.declarators)).Nodup :=
    shared.nodup_iff.mpr ((steady.linked.nodup_descendants steady.isTop.allocated).filter _)
  have sole (id : NodeId) (member : id ∈ (groups p function).flatMap (·.declarators)) :
      IsSole p id := by
    obtain ⟨isNode, isMarshalled⟩ := List.mem_filter.mp (shared.mem_iff.mp member)
    obtain ⟨⟨name, value⟩, found⟩ := Option.isSome_iff_exists.mp isMarshalled
    exact isSole_of_marshalled? steady.sound
      ((steady.linked.mem_descendants_iff steady.isTop.allocated).mp isNode) found
  have isOld (found : List Group) (fits : found ⊆ groups p function) (d : NodeId)
      (member : d ∈ spent c mode found) :
      p.tree.Allocated d := by
    obtain ⟨group, isGroup, isDeclared⟩ := List.mem_flatMap.mp (spent_subset c mode found member)
    have isSole := sole d (List.mem_flatMap.mpr ⟨group, fits isGroup, isDeclared⟩)
    exact allocated_of_isSole steady.linked steady.isTop isSole
  refine .mono
    (Surely.anyChange (W := allDeclarators) (fun rest q => (rest.flatMap (·.declarators)).Nodup ∧
      (∀ id ∈ rest.flatMap (·.declarators), IsSole q id) ∧
      ∃ before becomes, groups p function = before ++ rest ∧
        Unwraps p q mode (spent c mode before) (unwrapped c mode before) becomes) steady
        ⟨distinct, sole, [], _, rfl, .start p mode⟩ fun group rest q isGroup between _ kept => ?_)
    fun _ q ⟨⟨_, _, before, becomes, same, unwraps⟩, _⟩ => ?_
  · obtain ⟨distinct, sole, before, becomes, same, unwraps⟩ := kept
    rw [List.flatMap_cons] at distinct sole
    have distinctRest := (List.nodup_append.mp distinct).2.1
    have next : groups p function = (before ++ [group]) ++ rest := by
      rw [same, List.append_assoc, List.singleton_append]
    split
    · rename_i notPlanned
      refine .pure between
        ⟨⟨distinctRest, fun id member => sole id (List.mem_append_right _ member),
          before ++ [group], becomes, next, ?_⟩, .refl q⟩
      simpa [spent, unwrapped, notPlanned] using unwraps
    · rename_i value planned
      refine .bind
        ((lightens_unwrapGroup mode value between (nonempty group isGroup) distinct sole).and
          (surely_unwrapGroup between (List.nodup_append.mp distinct).1 fun id member =>
            sole id (List.mem_append_left _ member)))
          fun _ r after _ ⟨⟨lighter, solely⟩, further, unwrapsGroup⟩ => ?_
      have both := unwraps.trans unwrapsGroup steady between fun d member =>
        isOld (before ++ [group]) (next ▸ List.subset_append_left _ _) d
          (by simpa [spent, planned] using member)
      refine .pure after
        ⟨⟨distinctRest, solely, before ++ [group], fun id => (becomes id).flatMap further, next,
          ?_⟩, .of_lt lighter⟩
      simpa [spent, unwrapped, planned] using both
  · rw [List.append_nil] at same
    exact ⟨becomes, by rwa [same]⟩

end Marshal

/-- A run unwraps marshalled names: their declarators go away, and each use of a name, wherever it
stands, comes to stand for what is left when the values are put in the places of their names one
after the other. That is the value of the name itself, whatever the order, if no other name is
spelled like this value. -/
theorem Program.Steady.unwraps_names {p : Program} (steady : p.Steady) (function : String)
    (mode : MarshalMode) (c : Context) :
    ∃ changed w becomes, (Rule.marshalUnwrap function mode).run ⟨p, c⟩ = .ok changed w ∧
      Marshal.Unwraps p w.program mode (Marshal.spent c mode (Marshal.groups p function))
        (Marshal.unwrapped c mode (Marshal.groups p function)) becomes ∧
      (∀ d ∈ p.nodes, ∀ name known value, Marshal.marshalled? p function d = some (name, known) →
        (name, value) ∈ Marshal.unwrapped c mode (Marshal.groups p function) →
          known = value ∧ w.program.isAttached d = false) ∧
      ∀ before name value behind,
        Marshal.unwrapped c mode (Marshal.groups p function) = before ++ (name, value) :: behind →
          (mode = .literal ∨ ∀ plan ∈ behind, plan.1 ≠ value) →
            Marshal.settled mode (Marshal.unwrapped c mode (Marshal.groups p function)) name =
              Marshal.leaf mode value := by
  obtain ⟨changed, w, ran, -, -, becomes, unwraps⟩ :=
    (Marshal.surely_unwraps steady function mode c).exists_ok c
  refine ⟨changed, w, becomes, ran, unwraps,
    fun d isNode name known value isMarshalled isPlan => ?_,
    fun before name value behind split apart => ?_⟩
  · obtain ⟨same, isSpent⟩ := Marshal.mem_spent isNode isMarshalled isPlan
    exact ⟨same, unwraps.gone d isSpent⟩
  · have distinct := Marshal.nodup_unwrapped p function c mode
    rw [split] at distinct ⊢
    rw [List.map_append, List.map_cons, List.nodup_append] at distinct
    exact Marshal.settled_of_apart
      (fun member => distinct.2.2 name member name (List.mem_cons_self ..) rfl) apart

/-! ### A value that is spelled like another name -/

namespace Marshal

/-- The tree of `var a = m("b"), b = m("c"); a;`. -/
def twice : Tree :=
  ⟨#[⟨.identifier "a", some ⟨4⟩⟩, ⟨.identifier "m", some ⟨3⟩⟩,
    ⟨.literal (.string "b" none), some ⟨3⟩⟩, ⟨.call ⟨1⟩ [⟨2⟩], some ⟨4⟩⟩,
    ⟨.variableDeclarator ⟨0⟩ (some ⟨3⟩), some ⟨10⟩⟩, ⟨.identifier "b", some ⟨9⟩⟩,
    ⟨.identifier "m", some ⟨8⟩⟩, ⟨.literal (.string "c" none), some ⟨8⟩⟩,
    ⟨.call ⟨6⟩ [⟨7⟩], some ⟨9⟩⟩, ⟨.variableDeclarator ⟨5⟩ (some ⟨8⟩), some ⟨10⟩⟩,
    ⟨.variableDeclaration .var [⟨4⟩, ⟨9⟩], some ⟨13⟩⟩, ⟨.identifier "a", some ⟨12⟩⟩,
    ⟨.expressionStatement ⟨11⟩, some ⟨13⟩⟩, ⟨.program [⟨10⟩, ⟨12⟩], none⟩]⟩

theorem exists_twice :
    ∃ p, Program.ofTree twice ⟨13⟩ = .ok p ∧ p.Steady ∧ p.tree = twice ∧ p.root = ⟨13⟩ ∧
      marshalled? p "m" ⟨4⟩ = some ("a", "b") ∧
        groups p "m" = [⟨"a", some "b", [⟨4⟩]⟩, ⟨"b", some "c", [⟨9⟩]⟩] := by
  have linked : twice.Linked := Tree.linked_of_checks (by decide)
  have isTop : twice.IsTop ⟨13⟩ := ⟨by decide, by decide⟩
  obtain ⟨scopes, made, steady⟩ := Program.exists_steady twice ⟨13⟩ linked isTop
    (Tree.wellBound_of_bindsWell (by decide)) rfl
  set p : Program := ⟨twice, ⟨13⟩, scopes, false⟩ with isProgram
  have sound := steady.sound
  have constant {id : NodeId} {d : Declaration}
      (means : (twice.lexicon ⟨13⟩).meaning? id = some d) :
      ∃ b, p.bindingOf? id = some b ∧ (p.binding b).isConstant = true := by
    obtain ⟨b, found, stands⟩ := sound.exists_stands (Lexicon.meaning?_some means)
    refine ⟨b, ?_, ?_⟩
    · rw [sound.bindingOf?_eq]
      exact (congrArg (Option.bind · _) means).trans found
    · exact (sound.isConstant_iff (Lexicon.meaning?_some means) found).mpr fun id =>
        Program.not_writes_of_uses linked isTop (by decide) (by decide) _ id
  obtain ⟨a, belongsA, constantA⟩ :=
    constant (show (twice.lexicon ⟨13⟩).meaning? ⟨0⟩ = some ⟨⟨13⟩, "a", .var, ⟨4⟩, ⟨0⟩⟩ by decide)
  obtain ⟨b, belongsB, constantB⟩ :=
    constant (show (twice.lexicon ⟨13⟩).meaning? ⟨5⟩ = some ⟨⟨13⟩, "b", .var, ⟨9⟩, ⟨5⟩⟩ by decide)
  have first : marshalled? p "m" ⟨4⟩ = some ("a", "b") := by
    have same : marshalled? p "m" ⟨4⟩ = (p.bindingOf? ⟨0⟩).bind fun binding =>
        if (p.binding binding).isConstant then some ("a", "b") else none := rfl
    rw [same, belongsA, Option.bind_some, if_pos constantA]
  have second : marshalled? p "m" ⟨9⟩ = some ("b", "c") := by
    have same : marshalled? p "m" ⟨9⟩ = (p.bindingOf? ⟨5⟩).bind fun binding =>
        if (p.binding binding).isConstant then some ("b", "c") else none := rfl
    rw [same, belongsB, Option.bind_some, if_pos constantB]
  refine ⟨p, made, steady, rfl, rfl, first, ?_⟩
  have nodes : p.nodes = [⟨13⟩, ⟨10⟩, ⟨4⟩, ⟨0⟩, ⟨3⟩, ⟨1⟩, ⟨2⟩, ⟨9⟩, ⟨5⟩, ⟨8⟩, ⟨6⟩, ⟨7⟩,
      ⟨12⟩, ⟨11⟩] := rfl
  have isOther : ∀ id ∈ p.nodes, id ≠ ⟨4⟩ → id ≠ ⟨9⟩ → marshalled? p "m" id = none := by
    rw [nodes]
    intro id member notFirst notSecond
    fin_cases member <;> first | rfl | contradiction
  rw [nodes] at isOther
  change p.nodes.foldl (collect p "m") [] = _
  rw [nodes]
  simp [collect, first, second, isOther, addTo]

variable {p : Program}

theorem unwrapped_twice (mode : MarshalMode)
    (isGroups : groups p "m" = [⟨"a", some "b", [⟨4⟩]⟩, ⟨"b", some "c", [⟨9⟩]⟩]) :
    unwrapped default mode (groups p "m") = [("a", "b"), ("b", "c")] ∧
      spent default mode (groups p "m") = [⟨4⟩, ⟨9⟩] := by
  rw [isGroups]
  cases mode <;> exact ⟨by decide, by decide⟩

theorem reads_twice (isTree : p.tree = twice) (isRoot : p.root = ⟨13⟩) : p.isAttached ⟨11⟩ = true ∧
    (∀ d ∈ [⟨4⟩, ⟨9⟩], p.tree.isWithin ⟨11⟩ d = false) ∧ p.tree.role ⟨11⟩ = .reference ∧
      (p.node ⟨11⟩).identifier? = some "a" := by
  rw [Program.isAttached, Program.node, isTree, isRoot]
  decide

end Marshal

/-- The use of `a` in `twice` comes to stand for the string of `a`. -/
theorem Program.Steady.exists_unwraps_names : ∃ (p : Program) (changed : Bool) (w : Workspace)
    (becomes : NodeId → List NodeId) (new : NodeId),
      Program.ofTree Marshal.twice ⟨13⟩ = .ok p ∧ p.Steady ∧
        (Rule.marshalUnwrap "m" .literal).run ⟨p, default⟩ = .ok changed w ∧
        p.Recomposed w.program becomes ∧
          w.program.isAttached ⟨4⟩ = false ∧ becomes ⟨11⟩ = [new] ∧
            w.program.isAttached new = true ∧
              w.program.node new = .literal (.string "b" none) := by
  obtain ⟨p, made, steady, isTree, isRoot, first, isGroups⟩ := Marshal.exists_twice
  obtain ⟨names, spent⟩ := Marshal.unwrapped_twice .literal isGroups
  obtain ⟨attached, outside, isReference, spelled⟩ := Marshal.reads_twice isTree isRoot
  obtain ⟨changed, w, becomes, ran, unwraps, gone, own⟩ := steady.unwraps_names "m" .literal default
  rw [names] at gone own
  rw [names, spent] at unwraps
  have isNode : ⟨4⟩ ∈ p.nodes := by
    rw [Program.nodes, isTree, isRoot]
    decide
  obtain ⟨new, alone, placed, isSettled, -⟩ := unwraps.read attached outside isReference spelled
  rw [own [] "a" "b" [("b", "c")] rfl (.inl rfl)] at isSettled
  exact ⟨p, changed, w, becomes, new, made, steady, ran, unwraps.toRecomposed,
    (gone _ isNode "a" "b" "b" first (by decide)).2, alone, placed, isSettled⟩

/-- If names are unwrapped to identifiers, the use of `a` in `twice` does not come to stand for the
value of `a`: this is spelled like another name, whose value takes its place in turn. -/
theorem Rule.exists_unwrapped_twice : ∃ (p : Program) (changed : Bool) (w : Workspace)
    (becomes : NodeId → List NodeId) (new : NodeId),
      Program.ofTree Marshal.twice ⟨13⟩ = .ok p ∧ p.Steady ∧
        ("a", "b") ∈ Marshal.unwrapped default .identifier (Marshal.groups p "m") ∧
          p.tree.role ⟨11⟩ = .reference ∧ (p.node ⟨11⟩).identifier? = some "a" ∧
            (Rule.marshalUnwrap "m" .identifier).run ⟨p, default⟩ = .ok changed w ∧
            p.Recomposed w.program becomes ∧
              becomes ⟨11⟩ = [new] ∧ w.program.isAttached new = true ∧
                w.program.node new = .identifier "c" ∧
                  w.program.node new ≠ Marshal.leaf .identifier "b" := by
  obtain ⟨p, made, steady, isTree, isRoot, -, isGroups⟩ := Marshal.exists_twice
  obtain ⟨names, spent⟩ := Marshal.unwrapped_twice .identifier isGroups
  obtain ⟨attached, outside, isReference, spelled⟩ := Marshal.reads_twice isTree isRoot
  have surely := Marshal.surely_unwraps steady "m" .identifier default
  obtain ⟨changed, w, ran, -, -, becomes, unwraps⟩ := surely.exists_ok default
  rw [names, spent] at unwraps
  obtain ⟨new, alone, placed, isSettled, -⟩ := unwraps.read attached outside isReference spelled
  have isOther : w.program.node new = .identifier "c" := isSettled
  refine ⟨p, changed, w, becomes, new, made, steady, ?_, isReference, spelled, ran,
    unwraps.toRecomposed, alone, placed, isOther, ?_⟩
  · rw [names]
    decide
  · rw [isOther]
    exact fun same => absurd (Node.identifier.inj same) (by decide)

end Unravel
