import Unravel.Proofs.Scope.Position
import Unravel.Scope.Basic

/-!
The names that a tree declares, the scopes they belong to and the scopes that a place sees, all
read off the nodes alone.

`Tree.declarationsAt` lists what one node declares and in which scope, `Tree.sight` the scopes
in which a name at a place is looked up. Main statement: no identifier is declared twice
(`Tree.Linked.nodup_declarations`).
-/

namespace Unravel

/-- A name with the scope it is declared in, given by the node that opens the scope. -/
structure Declaration where
  owner : NodeId
  name : String
  kind : BindingKind
  declaration : NodeId
  identifier : NodeId
deriving DecidableEq

namespace Tree

def opens (t : Tree) (id : NodeId) : Bool := (t.scopeKind? id).isSome

/-- The nodes above `id` that open scopes, the nearest first. -/
def scopesAround (t : Tree) (id : NodeId) : List NodeId := (t.ancestors id).filter t.opens

/-- The nodes from `id` upwards that open scopes, the nearest first. -/
def scopesFrom (t : Tree) (id : NodeId) : List NodeId := (id :: t.ancestors id).filter t.opens

/-- The scope that a `var` belongs to: of the given scopes the first that is no block, or the
last. -/
def hoistTarget? (t : Tree) (places : List NodeId) : Option NodeId :=
  (places.dropWhile fun place => t.scopeKind? place = some .block).head?.or places.getLast?

/-- The declarations that some identifiers make in a scope; nothing else is declared. -/
def declaredNames (t : Tree) (owner : Option NodeId) (kind : BindingKind) (declaration : NodeId)
    (identifiers : List NodeId) : List Declaration :=
  match owner with
  | none => []
  | some owner => identifiers.filterMap fun id =>
    (t.node id).identifier?.map fun name => ⟨owner, name, kind, declaration, id⟩

/-- The names of the patterns in some places of a node. -/
def namesIn (t : Tree) (id : NodeId) (part : Part) : List NodeId :=
  ((t.node id).part part).flatMap t.patternNames

/-- The declarations that a node itself makes, in source order. -/
def declarationsAt (t : Tree) (id : NodeId) : List Declaration :=
  match (t.node id).tag with
  | .variableDeclaration kind _ =>
    let owner := if kind = .var then t.hoistTarget? (t.scopesFrom id) else (t.scopesFrom id).head?
    ((t.node id).part .declarators).flatMap fun declarator =>
      t.declaredNames owner (.ofVarKind kind) declarator (t.namesIn declarator .target)
  | .function f =>
    (if f.kind = .declaration then
      t.declaredNames (t.scopesAround id).head? .function id ((t.node id).part .name)
    else t.declaredNames (some id) .local_ id ((t.node id).part .name))
      ++ t.declaredNames (some id) .param id (t.namesIn id .params)
  | .classDef c =>
    if c.isDeclaration then
      t.declaredNames (t.scopesFrom id).head? .class_ id ((t.node id).part .name)
    else []
  | _ => []

/-- Whether the name of a function declaration is at hand, which is looked up around the
function. -/
def functionNamedBy? (t : Tree) (id : NodeId) : Option NodeId :=
  (t.parent? id).filter fun parent =>
    t.holds parent id .name && match (t.node parent).tag with
      | .function f => f.kind = .declaration
      | _ => false

/-- The first of the given nodes that opens a scope; a switch statement does not for the node
before it, if that is its discriminant. -/
def scopeAmong? (t : Tree) (inner : Option NodeId) : List NodeId → Option NodeId
  | [] => none
  | node :: outer =>
    if t.opens node && !inner.any (fun inner => t.holds node inner .discriminant) then some node
    else t.scopeAmong? (some node) outer

/-- The node whose scope names are looked up in first. -/
def scopeNode? (t : Tree) (id : NodeId) : Option NodeId :=
  match t.functionNamedBy? id with
  | some function => t.scopeAmong? (some function) (t.ancestors function)
  | none => t.scopeAmong? none (id :: t.ancestors id)

/-- The scopes in which a name at a place is looked up, the nearest first. -/
def sight (t : Tree) (id : NodeId) : List NodeId := (t.scopeNode? id).toList.flatMap t.scopesFrom

variable {t after : Tree} {id parent old root owner : NodeId} {new : Option NodeId}
  {d : Declaration}

/-! ### What is declared -/

theorem mem_declaredNames {owner : Option NodeId} {kind : BindingKind} {declaration : NodeId}
    {identifiers : List NodeId} :
    d ∈ t.declaredNames owner kind declaration identifiers ↔
      owner = some d.owner ∧ d.kind = kind ∧ d.declaration = declaration ∧
        d.identifier ∈ identifiers ∧ (t.node d.identifier).identifier? = some d.name := by
  cases owner with
  | none => simp [declaredNames]
  | some owner =>
    simp only [declaredNames, List.mem_filterMap, Option.map_eq_some_iff, Option.some.injEq]
    constructor
    · rintro ⟨id, member, name, spelled, rfl⟩
      exact ⟨rfl, rfl, rfl, member, spelled⟩
    · rintro ⟨rfl, rfl, rfl, member, spelled⟩
      exact ⟨d.identifier, member, d.name, spelled, rfl⟩

theorem map_identifier_declaredNames (owner : Option NodeId) (kind : BindingKind)
    (declaration : NodeId) (identifiers : List NodeId) :
    ((t.declaredNames owner kind declaration identifiers).map (·.identifier)).Sublist
      identifiers := by
  cases owner with
  | none => simp [declaredNames]
  | some owner =>
    simp only [declaredNames]
    induction identifiers with
    | nil => simp
    | cons head tail induction =>
      rw [List.filterMap_cons]
      cases (t.node head).identifier? with
      | none => exact induction.cons head
      | some name => exact induction.cons_cons head

theorem filter_declaredNames (owner : Option NodeId) (kind : BindingKind) (declaration : NodeId)
    (identifiers : List NodeId) (keep : NodeId → Bool) :
    (t.declaredNames owner kind declaration identifiers).filter (fun d => keep d.identifier) =
      t.declaredNames owner kind declaration (identifiers.filter keep) := by
  cases owner with
  | none => rfl
  | some owner =>
    simp only [declaredNames]
    induction identifiers with
    | nil => rfl
    | cons head tail induction =>
      rw [List.filterMap_cons, List.filter_cons]
      cases spelled : (t.node head).identifier? <;> by_cases kept : keep head <;>
        simp [kept, spelled, induction]

theorem dropWhile_congr {α : Type} {l : List α} {p q : α → Bool} (same : ∀ a ∈ l, p a = q a) :
    l.dropWhile p = l.dropWhile q := by
  induction l with
  | nil => rfl
  | cons head tail induction =>
    rw [List.forall_mem_cons] at same
    rw [List.dropWhile_cons, List.dropWhile_cons, same.1, induction same.2]

theorem hoistTarget?_mem {places : List NodeId} (found : t.hoistTarget? places = some owner) :
    owner ∈ places := by
  rw [hoistTarget?, Option.or_eq_some_iff] at found
  rcases found with found | ⟨-, found⟩
  · exact (List.dropWhile_suffix _).subset (List.mem_of_mem_head? found)
  · exact List.mem_of_getLast? found

theorem mem_scopesFrom :
    owner ∈ t.scopesFrom id ↔ t.isWithin id owner = true ∧ t.opens owner = true := by
  rw [scopesFrom, List.mem_filter, List.mem_cons, isWithin_iff, @eq_comm _ owner]

theorem mem_scopesAround :
    owner ∈ t.scopesAround id ↔ owner ∈ t.ancestors id ∧ t.opens owner = true := by
  simp [scopesAround]

theorem opens_of_function {f : Function NodeId} (shape : t.node id = .function f) :
    t.opens id = true := by
  simp [opens, scopeKind?, shape]

structure Introduces (t : Tree) (id : NodeId) (d : Declaration) : Prop where
  spelled : (t.node d.identifier).identifier? = some d.name
  place : ∃ holder pattern part, pattern ∈ (t.node holder).part part ∧
    d.identifier ∈ t.patternNames pattern ∧
    (part ∈ [.name, .params] ∧ holder = id ∨
      part = .target ∧ holder ∈ (t.node id).part .declarators)
  owner : t.isWithin id d.owner = true
  opens : t.opens d.owner = true

namespace Linked

variable (linked : t.Linked)

include linked

theorem patternNames_of_identifier {name : String} (allocated : t.Allocated id)
    (spelled : (t.node id).identifier? = some name) : t.patternNames id = [id] := by
  rw [linked.patternNames_eq allocated, if_pos (by simp [Node.isIdentifier, spelled])]

private theorem introduces_of_name {ownerNode : Option NodeId} {kind : BindingKind}
    (member : d ∈ t.declaredNames ownerNode kind id ((t.node id).part .name))
    (owner : t.isWithin id d.owner = true) (opens : t.opens d.owner = true) :
    t.Introduces id d := by
  obtain ⟨-, -, -, held, spelled⟩ := mem_declaredNames.mp member
  have allocated := linked.allocated_of_mem_part held
  refine ⟨spelled, ⟨id, d.identifier, .name, held, ?_, .inl ⟨by simp, rfl⟩⟩, owner, opens⟩
  rw [linked.patternNames_of_identifier allocated spelled]
  exact List.mem_singleton_self _

theorem introduces_of_mem (member : d ∈ t.declarationsAt id) : t.Introduces id d := by
  unfold declarationsAt at member
  split at member
  case h_1 kind _ _ =>
    obtain ⟨declarator, held, below⟩ := List.mem_flatMap.mp member
    obtain ⟨owner, -, -, named, spelled⟩ := mem_declaredNames.mp below
    obtain ⟨pattern, patternHeld, named⟩ := List.mem_flatMap.mp named
    have scope : d.owner ∈ t.scopesFrom id := by
      split at owner
      · exact hoistTarget?_mem owner
      · exact List.mem_of_mem_head? owner
    rw [mem_scopesFrom] at scope
    exact ⟨spelled, ⟨declarator, pattern, .target, patternHeld, named, .inr ⟨rfl, held⟩⟩,
      scope.1, scope.2⟩
  case h_2 f tag =>
    have own : t.opens id = true := by
      cases shape : t.node id <;> simp_all [Node.tag]
      exact opens_of_function shape
    rcases List.mem_append.mp member with member | member
    · split at member
      · have owner := (mem_declaredNames.mp member).1
        have scope := mem_scopesAround.mp (List.mem_of_mem_head? owner)
        exact linked.introduces_of_name member (isWithin_iff.mpr (.inr scope.1)) scope.2
      · have owner := Option.some.inj (mem_declaredNames.mp member).1
        exact linked.introduces_of_name member (by rw [← owner, isWithin_self]) (by rwa [← owner])
    · obtain ⟨owner, -, -, named, spelled⟩ := mem_declaredNames.mp member
      obtain ⟨pattern, patternHeld, named⟩ := List.mem_flatMap.mp named
      rw [Option.some.injEq] at owner
      exact ⟨spelled, ⟨id, pattern, .params, patternHeld, named, .inl ⟨by simp, rfl⟩⟩,
        by rw [← owner, isWithin_self], by rwa [← owner]⟩
  case h_3 c tag =>
    split at member
    · have owner := (mem_declaredNames.mp member).1
      have scope := mem_scopesFrom.mp (List.mem_of_mem_head? owner)
      exact linked.introduces_of_name member scope.1 scope.2
    · cases member
  case h_4 => cases member

theorem binds_of_mem (member : d ∈ t.declarationsAt id) : t.Binds d.identifier := by
  obtain ⟨holder, pattern, part, held, named, position⟩ :=
    (linked.introduces_of_mem member).place
  have isPlace : part ∈ [.target, .name, .params] := by
    rcases position with ⟨member, -⟩ | ⟨rfl, -⟩ <;> simp_all
  exact linked.binds_of_mem_patternNames (linked.allocated_of_mem_part held) (.place isPlace held)
    named

theorem isWithin_of_mem (member : d ∈ t.declarationsAt id) : t.isWithin d.identifier id = true := by
  obtain ⟨holder, pattern, part, held, named, position⟩ := (linked.introduces_of_mem member).place
  have above := linked.parent?_of_mem_part held
  have below := linked.isWithin_trans
    (linked.isWithin_of_mem_patternNames (allocated_of_parent? above) named)
    (linked.isWithin_of_parent above)
  rcases position with ⟨-, rfl⟩ | ⟨-, holderHeld⟩
  · exact below
  · exact linked.isWithin_trans below
      (linked.isWithin_of_parent (linked.parent?_of_mem_part holderHeld))

theorem declaring_unique {a b : NodeId} {first second : Declaration}
    (firstMember : first ∈ t.declarationsAt a) (secondMember : second ∈ t.declarationsAt b)
    (same : first.identifier = second.identifier) :
    a = b := by
  obtain ⟨aHolder, aPattern, aPart, aHeld, aNamed, aPosition⟩ :=
    (linked.introduces_of_mem firstMember).place
  obtain ⟨bHolder, bPattern, bPart, bHeld, bNamed, bPosition⟩ :=
    (linked.introduces_of_mem secondMember).place
  rw [same] at aNamed
  have samePattern := linked.place_unique (by rcases aPosition with ⟨h, -⟩ | ⟨rfl, -⟩ <;> simp_all)
    aHeld (by rcases bPosition with ⟨h, -⟩ | ⟨rfl, -⟩ <;> simp_all) bHeld aNamed bNamed
  subst samePattern
  have sameHolder : aHolder = bHolder := by
    have above := linked.parent?_of_mem_part aHeld
    rw [linked.parent?_of_mem_part bHeld, Option.some.injEq] at above
    exact above.symm
  subst sameHolder
  -- A node with a target has neither a name nor parameters.
  have apart {part : Part} (isOther : part ∈ [.name, .params])
      (otherHeld : aPattern ∈ (t.node aHolder).part part)
      (targetHeld : aPattern ∈ (t.node aHolder).part .target) : False := by
    rcases place_cases (by simp) targetHeld with ⟨_, shape⟩ | ⟨_, shape, -⟩ | ⟨_, shape, -⟩ <;>
      simp_all [Node.part]
    rcases isOther with rfl | rfl <;> simp_all
  rcases aPosition with ⟨aIsPlace, aSame⟩ | ⟨aTarget, aDeclarator⟩ <;>
    rcases bPosition with ⟨bIsPlace, bSame⟩ | ⟨bTarget, bDeclarator⟩
  · rw [← aSame, ← bSame]
  · subst bTarget
    exact absurd bHeld fun held => apart aIsPlace aHeld held
  · subst aTarget
    exact absurd aHeld fun held => apart bIsPlace bHeld held
  · have above := linked.parent?_of_mem_part aDeclarator
    rw [linked.parent?_of_mem_part bDeclarator, Option.some.injEq] at above
    exact above.symm

theorem nodup_namesIn (id : NodeId) (part : Part) : (t.namesIn id part).Nodup := by
  rw [namesIn, List.nodup_flatMap]
  refine ⟨fun pattern held => linked.nodup_patternNames (linked.allocated_of_mem_part held), ?_⟩
  refine (linked.nodup_part id part).imp_of_mem ?_
  intro a b firstHeld secondHeld different name first second
  have firstAbove := linked.parent?_of_mem_part firstHeld
  have secondAbove := linked.parent?_of_mem_part secondHeld
  exact different (linked.eq_of_isWithin_children firstAbove secondAbove
    (linked.isWithin_of_mem_patternNames (allocated_of_parent? firstAbove) first)
    (linked.isWithin_of_mem_patternNames (allocated_of_parent? secondAbove) second))

theorem isWithin_of_mem_namesIn {name : NodeId} {part : Part} (member : name ∈ t.namesIn id part) :
    ∃ pattern ∈ (t.node id).part part, t.isWithin name pattern = true := by
  obtain ⟨pattern, held, named⟩ := List.mem_flatMap.mp member
  exact ⟨pattern, held,
    linked.isWithin_of_mem_patternNames (linked.allocated_of_mem_part held) named⟩

theorem nodup_declarationsAt (id : NodeId) : ((t.declarationsAt id).map (·.identifier)).Nodup := by
  unfold declarationsAt
  split
  case h_1 kind _ _ =>
    rw [List.map_flatMap, List.nodup_flatMap]
    refine ⟨fun declarator _ => (linked.nodup_namesIn declarator .target).sublist
      (map_identifier_declaredNames ..), ?_⟩
    refine (linked.nodup_part id .declarators).imp_of_mem ?_
    intro a b firstHeld secondHeld different name first second
    have firstAbove := linked.parent?_of_mem_part firstHeld
    have secondAbove := linked.parent?_of_mem_part secondHeld
    obtain ⟨aPattern, aHeld, aBelow⟩ :=
      linked.isWithin_of_mem_namesIn ((map_identifier_declaredNames ..).subset first)
    obtain ⟨bPattern, bHeld, bBelow⟩ :=
      linked.isWithin_of_mem_namesIn ((map_identifier_declaredNames ..).subset second)
    exact different (linked.eq_of_isWithin_children firstAbove secondAbove
      (linked.isWithin_trans aBelow (linked.isWithin_of_parent (linked.parent?_of_mem_part aHeld)))
      (linked.isWithin_trans bBelow (linked.isWithin_of_parent (linked.parent?_of_mem_part bHeld))))
  case h_2 f tag =>
    rw [List.map_append, List.nodup_append]
    have ofName : ((if f.kind = .declaration then
        t.declaredNames (t.scopesAround id).head? .function id ((t.node id).part .name)
      else t.declaredNames (some id) .local_ id ((t.node id).part .name)).map
        (·.identifier)).Sublist ((t.node id).part .name) := by
      split <;> exact map_identifier_declaredNames ..
    refine ⟨(linked.nodup_part id .name).sublist ofName,
      (linked.nodup_namesIn id .params).sublist (map_identifier_declaredNames ..), ?_⟩
    rintro a first b second rfl
    have nameHeld := ofName.subset first
    obtain ⟨pattern, held, below⟩ :=
      linked.isWithin_of_mem_namesIn ((map_identifier_declaredNames ..).subset second)
    -- The name is a child of the function like the parameters, and different from them.
    have same := linked.eq_of_isWithin_children (linked.parent?_of_mem_part nameHeld)
      (linked.parent?_of_mem_part held) isWithin_self below
    subst same
    have distinct := linked.nodup_children id
    cases shape : t.node id <;> simp_all [Node.tag, Node.part, Node.children, List.nodup_append]
  case h_3 c tag =>
    split
    · exact (linked.nodup_part id .name).sublist (map_identifier_declaredNames ..)
    · exact List.nodup_nil
  case h_4 => exact List.nodup_nil

theorem nodup_declarations {nodes : List NodeId} (distinct : nodes.Nodup) :
    ((nodes.flatMap t.declarationsAt).map (·.identifier)).Nodup := by
  rw [List.map_flatMap, List.nodup_flatMap]
  refine ⟨fun id _ => linked.nodup_declarationsAt id, ?_⟩
  refine distinct.imp ?_
  intro a b different name first second
  obtain ⟨d, firstMember, firstNamed⟩ := List.mem_map.mp first
  obtain ⟨e, secondMember, secondNamed⟩ := List.mem_map.mp second
  exact different
    (linked.declaring_unique firstMember secondMember (firstNamed.trans secondNamed.symm))

end Linked

/-! ### What a place sees -/

theorem mem_of_scopeAmong? {inner : Option NodeId} {nodes : List NodeId}
    (found : t.scopeAmong? inner nodes = some id) : id ∈ nodes ∧ t.opens id = true := by
  induction nodes generalizing inner with
  | nil => cases found
  | cons head tail induction =>
    rw [scopeAmong?] at found
    split at found
    · rename_i condition
      rw [Bool.and_eq_true] at condition
      cases found
      exact ⟨List.mem_cons_self .., condition.1⟩
    · obtain ⟨member, opens⟩ := induction found
      exact ⟨List.mem_cons_of_mem _ member, opens⟩

theorem parent?_of_functionNamedBy? {function : NodeId}
    (named : t.functionNamedBy? id = some function) :
    t.parent? id = some function := by
  rw [functionNamedBy?, Option.filter_eq_some_iff] at named
  exact named.1

theorem Linked.isWithin_of_scopeNode? (linked : t.Linked) {place : NodeId}
    (found : t.scopeNode? id = some place) : t.isWithin id place = true ∧ t.opens place = true := by
  rw [scopeNode?] at found
  split at found
  · rename_i function named
    have held := parent?_of_functionNamedBy? named
    obtain ⟨member, opens⟩ := mem_of_scopeAmong? found
    refine ⟨linked.isWithin_trans (linked.isWithin_of_parent held) ?_, opens⟩
    exact isWithin_iff.mpr (.inr member)
  · obtain ⟨member, opens⟩ := mem_of_scopeAmong? found
    rw [List.mem_cons] at member
    exact ⟨isWithin_iff.mpr (member.imp_left Eq.symm), opens⟩

theorem Linked.mem_sight (linked : t.Linked) (member : owner ∈ t.sight id) :
    t.isWithin id owner = true ∧ t.opens owner = true := by
  obtain ⟨place, found, above⟩ := List.mem_flatMap.mp member
  rw [Option.mem_toList] at found
  obtain ⟨within, opens⟩ := mem_scopesFrom.mp above
  exact ⟨linked.isWithin_trans (linked.isWithin_of_scopeNode? found).1 within, opens⟩

end Tree

end Unravel
