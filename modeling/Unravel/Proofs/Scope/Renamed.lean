import Mathlib.Data.List.Find
import Unravel.Proofs.Scope.Lexicon

/-!
Giving some identifiers another name. The nodes stay what they are and where they are, so that
scopes, places and roles do not change (`Tree.Renamed`); what the tree declares and uses is the same
up to that name (`Tree.Renamed.declared_eq`, `Tree.Renamed.uses_eq`).
-/

namespace Unravel

/-- A declaration under another name, if its identifier has that. -/
def Declaration.renamed (ids : List NodeId) (name : String) (d : Declaration) : Declaration :=
  if d.identifier ∈ ids then { d with name } else d

section Declaration

variable {ids : List NodeId} {name : String} {d : Declaration}

namespace Declaration

@[simp] theorem owner_renamed : (d.renamed ids name).owner = d.owner := by
  rw [renamed]
  split <;> rfl

@[simp] theorem identifier_renamed : (d.renamed ids name).identifier = d.identifier := by
  rw [renamed]
  split <;> rfl

@[simp] theorem declaration_renamed : (d.renamed ids name).declaration = d.declaration := by
  rw [renamed]
  split <;> rfl

@[simp] theorem kind_renamed : (d.renamed ids name).kind = d.kind := by
  rw [renamed]
  split <;> rfl

end Declaration

end Declaration

namespace Tree

def rename (t : Tree) (ids : List NodeId) (name : String) : Tree :=
  ids.foldl (fun t id => t.setNode id (.identifier name)) t

structure Renamed (t : Tree) (ids : List NodeId) (name : String) (after : Tree) : Prop where
  size : after.size = t.size
  parent? : ∀ id, after.parent? id = t.parent? id
  node : ∀ id, after.node id = if id ∈ ids then .identifier name else t.node id
  isIdentifier : ∀ id ∈ ids, ∃ old, t.node id = .identifier old

variable {t after : Tree} {ids : List NodeId} {name : String} {id parent root : NodeId}

theorem size_rename : (t.rename ids name).size = t.size := by
  induction ids generalizing t with
  | nil => rfl
  | cons head rest induction => exact induction.trans (size_setNode ..)

theorem parent?_rename : (t.rename ids name).parent? id = t.parent? id := by
  induction ids generalizing t with
  | nil => rfl
  | cons head rest induction => exact induction.trans (parent?_setNode ..)

theorem node_rename (allocated : ∀ id ∈ ids, t.Allocated id) :
    (t.rename ids name).node id = if id ∈ ids then .identifier name else t.node id := by
  induction ids generalizing t with
  | nil => rfl
  | cons head rest induction =>
    rw [List.forall_mem_cons] at allocated
    have next := induction (t := t.setNode head (.identifier name)) fun id member => by
      rw [Allocated, size_setNode]
      exact allocated.2 id member
    change ((t.setNode head (.identifier name)).rename rest name).node id = _
    rw [next, node_setNode _ allocated.1]
    by_cases isHead : id = head <;> by_cases inRest : id ∈ rest <;> simp [isHead, inRest]

theorem renamed_rename (isIdentifier : ∀ id ∈ ids, ∃ old, t.node id = .identifier old) :
    t.Renamed ids name (t.rename ids name) where
  size := size_rename
  parent? _ := parent?_rename
  node id := by
    apply node_rename
    intro id member
    obtain ⟨old, shape⟩ := isIdentifier id member
    by_contra missing
    rw [node_of_not_allocated missing] at shape
    cases shape
  isIdentifier := isIdentifier

namespace Renamed

variable (renamed : t.Renamed ids name after)

include renamed

theorem node_congr {β : Type} (f : Node NodeId → β)
    (blind : ∀ a b, f (.identifier a) = f (.identifier b)) (id : NodeId) :
    f (after.node id) = f (t.node id) := by
  rw [renamed.node]
  split
  · rename_i member
    obtain ⟨old, shape⟩ := renamed.isIdentifier id member
    rw [shape]
    exact blind name old
  · rfl

theorem node_cases (id : NodeId) : after.node id = t.node id ∨
    ∃ old, t.node id = .identifier old ∧ after.node id = .identifier name := by
  rw [renamed.node]
  split
  · rename_i member
    obtain ⟨old, shape⟩ := renamed.isIdentifier id member
    exact .inr ⟨old, shape, rfl⟩
  · exact .inl rfl

theorem node_of_not_isIdentifier (shape : (t.node id).isIdentifier = false) :
    after.node id = t.node id := by
  rw [renamed.node, if_neg]
  intro member
  obtain ⟨old, isOld⟩ := renamed.isIdentifier id member
  rw [isOld] at shape
  cases shape

theorem children (id : NodeId) : (after.node id).children = (t.node id).children :=
  renamed.node_congr Node.children (fun _ _ => rfl) id

theorem part (part : Part) (id : NodeId) : (after.node id).part part = (t.node id).part part :=
  renamed.node_congr (fun n => n.part part) (fun _ _ => by cases part <;> rfl) id

theorem holds : after.holds = t.holds := by
  funext parent child part
  rw [Tree.holds, Tree.holds, renamed.part]

theorem isFunction (id : NodeId) : (after.node id).isFunction = (t.node id).isFunction :=
  renamed.node_congr Node.isFunction (fun _ _ => rfl) id

theorem allocated :
    after.Allocated id ↔ t.Allocated id := by rw [Allocated, Allocated, renamed.size]

theorem linked (linked : t.Linked) : after.Linked where
  mem_children := by
    intro parent child
    rw [renamed.children, renamed.parent?]
    exact linked.mem_children
  nodup_children id := by
    rw [renamed.children]
    exact linked.nodup_children id
  wellFounded := by
    simp only [renamed.parent?]
    exact linked.wellFounded

theorem isTop (isTop : t.IsTop root) : after.IsTop root :=
  ⟨renamed.allocated.mpr isTop.allocated, (renamed.parent? root).trans isTop.top⟩

/-! ### Places -/

theorem ancestors : after.ancestors = t.ancestors := by
  have within (limit : Nat) (id : NodeId) : after.ancestorsWithin limit id =
      t.ancestorsWithin limit id := by
    induction limit generalizing id with
    | zero => rfl
    | succ limit induction =>
      rw [ancestorsWithin, ancestorsWithin, renamed.parent?]
      cases t.parent? id with
      | none => rfl
      | some parent => exact congrArg (parent :: ·) (induction parent)
  funext id
  rw [Tree.ancestors, Tree.ancestors, renamed.size, within]

theorem isWithin : after.isWithin = t.isWithin := by
  funext id outer
  rw [Tree.isWithin, Tree.isWithin, renamed.ancestors]

theorem descendants : after.descendants = t.descendants := by
  have within (limit : Nat) (id : NodeId) : after.descendantsWithin limit id =
      t.descendantsWithin limit id := by
    induction limit generalizing id with
    | zero => rfl
    | succ limit induction =>
      rw [descendantsWithin, descendantsWithin, renamed.children, funext induction]
  funext id
  rw [Tree.descendants, Tree.descendants, renamed.size, within]

theorem precedes : after.precedes = t.precedes := by
  have forks (fork : NodeId) (a b : List NodeId) :
      after.forksBefore fork a b = t.forksBefore fork a b := by
    induction a generalizing fork b with
    | nil => rfl
    | cons head rest induction =>
      cases b with
      | nil => rfl
      | cons other others =>
        rw [forksBefore, forksBefore, renamed.children]
        split
        · exact induction head others
        · rfl
  funext a b
  simp only [Tree.precedes, renamed.isWithin, Tree.path, renamed.ancestors, forks]

theorem patternNames : after.patternNames = t.patternNames := by
  have within (limit : Nat) (id : NodeId) : after.patternNamesWithin limit id =
      t.patternNamesWithin limit id := by
    induction limit generalizing id with
    | zero => rfl
    | succ limit induction =>
      rw [patternNamesWithin, patternNamesWithin, funext induction]
      rcases renamed.node_cases id with same | ⟨old, before, later⟩
      · rw [same]
      · rw [before, later]
  funext id
  rw [Tree.patternNames, Tree.patternNames, renamed.size, within]

/-! ### Scopes and roles -/

theorem scopeKind? : after.scopeKind? = t.scopeKind? := by
  funext id
  rw [Tree.scopeKind?, Tree.scopeKind?, renamed.parent?]
  simp only [renamed.isFunction]
  rcases renamed.node_cases id with same | ⟨old, before, later⟩
  · rw [same]
  · rw [before, later]

theorem opens : after.opens = t.opens := by
  funext id
  rw [Tree.opens, Tree.opens, renamed.scopeKind?]

theorem scopesAround : after.scopesAround = t.scopesAround := by
  funext id
  rw [Tree.scopesAround, Tree.scopesAround, renamed.ancestors, renamed.opens]

theorem scopesFrom : after.scopesFrom = t.scopesFrom := by
  funext id
  rw [Tree.scopesFrom, Tree.scopesFrom, renamed.ancestors, renamed.opens]

theorem hoistTarget? : after.hoistTarget? = t.hoistTarget? := by
  funext places
  rw [Tree.hoistTarget?, Tree.hoistTarget?, renamed.scopeKind?]

theorem functionNamedBy? : after.functionNamedBy? = t.functionNamedBy? := by
  funext id
  rw [Tree.functionNamedBy?, Tree.functionNamedBy?, renamed.parent?, renamed.holds]
  congr 1
  funext parent
  rcases renamed.node_cases parent with same | ⟨old, before, later⟩
  · rw [same]
  · rw [before, later]
    rfl

theorem scopeAmong? : after.scopeAmong? = t.scopeAmong? := by
  funext inner places
  induction places generalizing inner with
  | nil => rw [Tree.scopeAmong?, Tree.scopeAmong?]
  | cons place outer induction =>
    rw [Tree.scopeAmong?, Tree.scopeAmong?, renamed.opens, renamed.holds, induction]

theorem sight : after.sight = t.sight := by
  funext id
  simp only [Tree.sight, Tree.scopeNode?, renamed.functionNamedBy?, renamed.scopeAmong?,
    renamed.ancestors, renamed.scopesFrom]

theorem role : after.role = t.role := by
  have pattern (id : NodeId) (above : List NodeId) :
      after.patternRole id above = t.patternRole id above := by
    induction above generalizing id with
    | nil => rw [Tree.patternRole, Tree.patternRole]
    | cons parent outer induction =>
      rw [patternRole_cons, patternRole_cons, renamed.holds, induction]
      exact renamed.node_congr
        (fun n => patternRoleIn n.tag (t.holds parent id) (t.patternRole parent outer))
        (fun _ _ => rfl) parent
  funext id
  cases held : t.parent? id with
  | none => rw [Tree.role, Tree.role, renamed.parent?, held]
  | some parent =>
    rw [role_of_parent held, role_of_parent ((renamed.parent? id).trans held),
      renamed.holds, pattern, renamed.ancestors]
    exact renamed.node_congr
      (fun n => roleIn n.tag (t.holds parent id) (t.patternRole parent (t.ancestors parent)))
      (fun _ _ => rfl) parent

/-! ### What is declared and used -/

theorem identifier? (id : NodeId) :
    (after.node id).identifier? =
      (t.node id).identifier?.map fun old => if id ∈ ids then name else old := by
  rw [renamed.node]
  split
  · rename_i member
    obtain ⟨old, shape⟩ := renamed.isIdentifier id member
    rw [shape]
    rfl
  · rw [Option.map_id']

theorem namesIn : after.namesIn = t.namesIn := by
  funext id part
  rw [Tree.namesIn, Tree.namesIn, renamed.part, renamed.patternNames]

theorem declaredNames (owner : Option NodeId) (kind : BindingKind) (declaration : NodeId)
    (identifiers : List NodeId) :
    after.declaredNames owner kind declaration identifiers =
      (t.declaredNames owner kind declaration identifiers).map (.renamed ids name) := by
  cases owner with
  | none => rfl
  | some owner =>
    rw [Tree.declaredNames, Tree.declaredNames, List.map_filterMap]
    apply List.filterMap_congr
    intro id _
    rw [renamed.identifier?, Option.map_map, Option.map_map]
    congr 1
    funext old
    rw [Function.comp_apply, Function.comp_apply, Declaration.renamed]
    split <;> rfl

theorem declarationsAt (id : NodeId) :
    after.declarationsAt id = (t.declarationsAt id).map (.renamed ids name) := by
  cases shape : (t.node id).isIdentifier with
  | true =>
    have isIdentifier := renamed.node_congr Node.isIdentifier (fun _ _ => rfl) id
    rw [shape] at isIdentifier
    have silent {t : Tree} (shape : (t.node id).isIdentifier = true) :
        t.declarationsAt id = [] := by
      rw [Tree.declarationsAt]
      cases found : t.node id <;> simp_all [Node.isIdentifier, Node.identifier?, Node.tag]
    rw [silent shape, silent isIdentifier]
    rfl
  | false =>
    simp only [Tree.declarationsAt, renamed.node_of_not_isIdentifier shape, renamed.hoistTarget?,
      renamed.scopesFrom, renamed.scopesAround, renamed.namesIn, renamed.declaredNames]
    split
    · rw [List.map_flatMap]
    · rw [List.map_append]
      split <;> rfl
    · split <;> rfl
    · rfl

theorem declared_eq :
    (after.lexicon root).declared = (t.lexicon root).declared.map (.renamed ids name) := by
  rw [lexicon, lexicon, renamed.descendants, List.map_flatMap]
  exact congrArg (List.flatMap · _) (funext renamed.declarationsAt)

theorem uses_eq (id : NodeId) : (after.lexicon root).uses id =
    ((t.lexicon root).uses id).map fun use => if id ∈ ids then { use with name } else use := by
  simp only [lexicon, renamed.isWithin, useAt?, renamed.identifier?, renamed.role, renamed.sight]
  split
  · cases (t.node id).identifier? with
    | none => rfl
    | some old =>
      simp only [Option.map_some, Option.bind_some]
      split <;> split <;> rfl
  · rfl

theorem scopes_eq : (after.lexicon root).scopes = (t.lexicon root).scopes := by
  simp only [lexicon, renamed.isWithin, renamed.scopeKind?, renamed.scopesAround]

end Renamed

end Tree

/-! ### What names mean -/

namespace Lexicon

theorem Regular.writes_iff {l : Lexicon} {e : Declaration} {id : NodeId} (regular : l.Regular) :
    l.Writes e id ↔ l.meaning? id = some e ∧
      ((∃ use, l.uses id = some use ∧ use.role.writes = true) ∨
        ∃ other ∈ l.declared, other.identifier = id ∧ other ≠ e) := by
  constructor
  · intro writes
    refine ⟨regular.meaning?_of_writes writes, ?_⟩
    rcases writes with ⟨use, isUse, isWritten, -⟩ | ⟨other, member, same, different, -⟩
    · exact .inl ⟨use, isUse, isWritten⟩
    · exact .inr ⟨other, member, same, different⟩
  · rintro ⟨means, ⟨use, isUse, isWritten⟩ | ⟨other, member, rfl, different⟩⟩
    · simp only [meaning?, isUse] at means
      exact .inl ⟨use, isUse, isWritten, means⟩
    · rw [regular.meaning?_of_declared member] at means
      exact .inr ⟨other, member, rfl, different, means⟩

structure Renamed (l : Lexicon) (d : Declaration) (ids : List NodeId) (name : String)
    (later : Lexicon) : Prop where
  regular : l.Regular
  laterRegular : later.Regular
  bound : l.binder? d.owner d.name = some d
  mem_iff : ∀ id, id ∈ ids ↔ l.meaning? id = some d
  undeclared : ∀ e ∈ l.declared, e.name ≠ name
  unused : ∀ id use, l.uses id = some use → use.name ≠ name
  declared : later.declared = l.declared.map (.renamed ids name)
  uses : ∀ id,
    later.uses id = (l.uses id).map fun use => if id ∈ ids then { use with name } else use

namespace Renamed

variable {l later : Lexicon} {d e : Declaration} {ids : List NodeId} {name other : String}
  {id owner : NodeId} {places : List NodeId} (renamed : l.Renamed d ids name later)

include renamed

theorem mem_ids_iff (member : e ∈ l.declared) :
    e.identifier ∈ ids ↔ e.owner = d.owner ∧ e.name = d.name := by
  rw [renamed.mem_iff, renamed.regular.meaning?_of_declared member]
  constructor
  · intro found
    obtain ⟨-, isOwner, isName⟩ := binder?_some found
    exact ⟨isOwner.symm, isName.symm⟩
  · rintro ⟨isOwner, isName⟩
    rw [isOwner, isName]
    exact renamed.bound

theorem binder?_of_ne (fresh : other ≠ name) (different : ¬(owner = d.owner ∧ other = d.name)) :
    later.binder? owner other = (l.binder? owner other).map (.renamed ids name) := by
  rw [binder?, binder?, renamed.declared, List.find?_map]
  congr 1
  apply List.find?_congr
  intro e member
  have place := renamed.mem_ids_iff member
  rw [Function.comp_apply, Declaration.renamed]
  split
  · -- What is renamed did not have this name here, and has not got it.
    rename_i isRenamed
    obtain ⟨isOwner, isName⟩ := place.mp isRenamed
    rw [Bool.eq_iff_iff]
    simp only [Bool.and_eq_true, decide_eq_true_eq, Ne.symm fresh, and_false, false_iff, not_and]
    rintro rfl rfl
    exact different ⟨isOwner, isName⟩
  · rfl

theorem binder?_name :
    later.binder? owner name = if owner = d.owner then some (d.renamed ids name) else none := by
  have isNamed :
      ∀ e ∈ l.declared, (e.renamed ids name).name = name ↔ e.owner = d.owner ∧ e.name = d.name := by
    intro e member
    rw [← renamed.mem_ids_iff member, Declaration.renamed]
    split
    · rename_i isRenamed
      exact iff_of_true rfl isRenamed
    · rename_i kept
      exact iff_of_false (renamed.undeclared e member) kept
  rw [binder?, renamed.declared, List.find?_map]
  split
  · rename_i isOwner
    have same :
        l.declared.find?
          ((fun e : Declaration => decide (e.owner = owner) && decide (e.name = name)) ∘
            Declaration.renamed ids name) = l.binder? d.owner d.name := by
      apply List.find?_congr
      intro e member
      rw [Function.comp_apply, Bool.eq_iff_iff]
      simp only [Bool.and_eq_true, decide_eq_true_eq, isNamed e member,
        Declaration.owner_renamed, isOwner]
      tauto
    rw [same, renamed.bound]
    rfl
  · rename_i otherOwner
    rw [Option.map_eq_none_iff, List.find?_eq_none]
    intro e member
    simp only [Function.comp_apply, Bool.and_eq_true, decide_eq_true_eq, isNamed e member,
      Declaration.owner_renamed]
    rintro ⟨rfl, isOwner, -⟩
    exact otherOwner isOwner

theorem look?_of_ne (fresh : other ≠ name) (different : l.look? places other ≠ some d) :
    later.look? places other = (l.look? places other).map (.renamed ids name) := by
  induction places with
  | nil => rfl
  | cons owner rest induction =>
    rw [look?, List.findSome?_cons] at different ⊢
    rw [look?, List.findSome?_cons, renamed.binder?_of_ne fresh]
    · cases found : l.binder? owner other with
      | some e => rfl
      | none =>
        rw [found] at different
        exact induction different
    · rintro ⟨rfl, rfl⟩
      rw [renamed.bound] at different
      exact different rfl

theorem look?_name (found : l.look? places other = some d) :
    later.look? places name = some (d.renamed ids name) := by
  have inSight := (look?_some found).1
  rw [look?]
  clear found
  induction places with
  | nil => cases inSight
  | cons owner rest induction =>
    rw [List.findSome?_cons, renamed.binder?_name]
    by_cases isOwner : owner = d.owner
    · rw [if_pos isOwner]
    · rw [if_neg isOwner]
      exact induction ((List.mem_cons.mp inSight).resolve_left (Ne.symm isOwner))

/-- Everything means what it meant, under the new name. -/
theorem meaning?_eq (id : NodeId) :
    later.meaning? id = (l.meaning? id).map (.renamed ids name) := by
  have means := renamed.mem_iff id
  rw [meaning?, renamed.uses]
  rw [meaning?] at means ⊢
  cases isUse : l.uses id with
  | some use =>
    rw [isUse] at means
    dsimp only at means
    simp only [Option.map_some]
    split
    · rename_i isRenamed
      have found := means.mp isRenamed
      rw [found, Option.map_some]
      exact renamed.look?_name found
    · rename_i kept
      exact renamed.look?_of_ne (renamed.unused id use isUse) (fun found => kept (means.mpr found))
  | none =>
    have same : later.declarationOf? id = (l.declarationOf? id).map (.renamed ids name) := by
      rw [declarationOf?, declarationOf?, renamed.declared, List.find?_map]
      congr 2
      funext e
      rw [Function.comp_apply, Declaration.identifier_renamed]
    simp only [Option.map_none, same]
    cases found : l.declarationOf? id with
    | none => rfl
    | some e =>
      obtain ⟨member, rfl⟩ := declarationOf?_some found
      have place := renamed.mem_ids_iff member
      simp only [Option.map_some, Option.bind_some, Declaration.owner_renamed]
      rw [Declaration.renamed]
      split
      · rename_i isRenamed
        obtain ⟨isOwner, isName⟩ := place.mp isRenamed
        rw [isOwner, isName, renamed.bound, renamed.binder?_name, if_pos rfl]
        rfl
      · rename_i kept
        exact renamed.binder?_of_ne (renamed.undeclared e member)
          (fun same => kept (place.mpr same))

theorem meaning?_iff (member : e ∈ l.declared) :
    later.meaning? id = some (e.renamed ids name) ↔ l.meaning? id = some e := by
  rw [renamed.meaning?_eq, Option.map_eq_some_iff]
  constructor
  · rintro ⟨other, means, same⟩
    have isDeclared := (binder?_some (meaning?_some means)).1
    have sameIdentifier := congrArg Declaration.identifier same
    rw [Declaration.identifier_renamed, Declaration.identifier_renamed] at sameIdentifier
    rwa [renamed.regular.eq_of_identifier isDeclared member sameIdentifier] at means
  · intro means
    exact ⟨e, means, rfl⟩

theorem writes_iff (member : e ∈ l.declared) :
    later.Writes (e.renamed ids name) id ↔ l.Writes e id := by
  rw [renamed.regular.writes_iff, renamed.laterRegular.writes_iff,
    renamed.meaning?_iff member, renamed.uses, renamed.declared]
  refine and_congr_right fun _ => or_congr ?_ ?_
  · cases l.uses id with
    | none => simp
    | some use =>
      simp only [Option.map_some, Option.some.injEq, exists_eq_left']
      split <;> rfl
  · simp only [List.mem_map, exists_exists_and_eq_and, Declaration.identifier_renamed]
    refine exists_congr
      fun other => and_congr_right fun isDeclared => and_congr_right fun _ => not_congr ?_
    constructor
    · intro same
      have sameIdentifier := congrArg Declaration.identifier same
      rw [Declaration.identifier_renamed, Declaration.identifier_renamed] at sameIdentifier
      exact renamed.regular.eq_of_identifier isDeclared member sameIdentifier
    · intro same
      rw [same]

end Renamed

end Lexicon

end Unravel
