import Unravel.Proofs.Scope.Update

/-!
Resolution of a whole tree. The declarations are made node by node in source order, each step
adding what the node declares to what the table describes; then the uses are attached one by one.

Main statement: `Scopes.ofTree` describes the lexicon of the tree (`Scopes.describes_ofTree`).
-/

namespace Unravel

namespace Lexicon

variable {l : Lexicon} {node id : NodeId} {d : Declaration}

theorem Regular.withDeclaration (regular : l.Regular) (noUses : ∀ id, l.uses id = none)
    (fresh : ∀ e ∈ l.declared, e.identifier ≠ d.identifier)
    (opens : (l.scopes d.owner).isSome = true) : (l.withDeclaration d).Regular where
  distinct := by
    rw [Lexicon.withDeclaration, List.map_append, List.nodup_append]
    refine ⟨regular.distinct, List.nodup_singleton _, ?_⟩
    rintro a member b isLast rfl
    obtain ⟨e, declared, rfl⟩ := List.mem_map.mp member
    rw [List.map_singleton, List.mem_singleton] at isLast
    exact fresh e declared isLast
  unused e _ := noUses e.identifier
  owner e member := by
    rcases List.mem_append.mp member with member | member
    · exact regular.owner e member
    · rw [List.mem_singleton] at member
      rwa [member]
  isUse := regular.isUse
  around := regular.around
  nodup := regular.nodup

theorem Regular.of_sublist (regular : l.Regular) {ds : List Declaration}
    (fewer : ds.Sublist l.declared) :
    ({ l with declared := ds } : Lexicon).Regular where
  distinct := regular.distinct.sublist (fewer.map _)
  unused d member := regular.unused d (fewer.subset member)
  owner d member := regular.owner d (fewer.subset member)
  isUse := regular.isUse
  around := regular.around
  nodup := regular.nodup

theorem Regular.usedAt (regular : l.Regular) (keep : NodeId → Bool) : (l.usedAt keep).Regular where
  distinct := regular.distinct
  unused d member := by
    simp only [Lexicon.usedAt, regular.unused d member, ite_self]
  owner := regular.owner
  isUse id use found := by
    simp only [Lexicon.usedAt, Option.ite_none_right_eq_some] at found
    exact regular.isUse id use found.2
  around := regular.around
  nodup := regular.nodup

end Lexicon

namespace Tree

/-- The lexicon of a tree of which only some nodes have been gone through, without uses. -/
def declaring (t : Tree) (nodes : List NodeId) : Lexicon where
  scopes id := if id ∈ nodes then (t.scopeKind? id).map (·, t.scopesAround id) else none
  declared := nodes.flatMap t.declarationsAt
  uses _ := none

structure IsUpward (t : Tree) (nodes : List NodeId) : Prop where
  distinct : nodes.Nodup
  closed : ∀ id ∈ nodes, ∀ above ∈ t.ancestors id, above ∈ nodes

variable {t : Tree} {nodes : List NodeId} {id root : NodeId}

theorem IsUpward.of_isWithin (upward : t.IsUpward nodes) (member : id ∈ nodes) {above : NodeId}
    (within : t.isWithin id above = true) : above ∈ nodes := by
  rcases isWithin_iff.mp within with rfl | isAbove
  · exact member
  · exact upward.closed id member above isAbove

theorem Linked.declaring_regular (linked : t.Linked) (upward : t.IsUpward nodes) :
    (t.declaring nodes).Regular where
  distinct := linked.nodup_declarations upward.distinct
  unused _ _ := rfl
  owner d member := by
    obtain ⟨id, idMember, declared⟩ := List.mem_flatMap.mp member
    have introduces := linked.introduces_of_mem declared
    have ownerMember := upward.of_isWithin idMember introduces.owner
    have opens := introduces.opens
    rw [Tree.opens] at opens
    simp [declaring, ownerMember, opens]
  isUse _ _ impossible := by cases impossible
  around id kind outer rest found := by
    simp only [declaring, Option.ite_none_right_eq_some, Option.map_eq_some_iff,
      Prod.mk.injEq] at found
    obtain ⟨member, -, -, -, around⟩ := found
    have isAround : outer ∈ t.scopesAround id := by simp [around]
    rw [mem_scopesAround] at isAround
    obtain ⟨outerKind, opens⟩ := Option.isSome_iff_exists.mp isAround.2
    refine ⟨outerKind, ?_⟩
    simp only [declaring, upward.closed id member outer isAround.1, opens, if_true, Option.map_some]
    rw [linked.scopesAround_eq around]
  nodup id kind outer found := by
    simp only [declaring, Option.ite_none_right_eq_some, Option.map_eq_some_iff,
      Prod.mk.injEq] at found
    obtain ⟨-, -, -, -, rfl⟩ := found
    exact (linked.nodup_ancestors id).sublist (List.filter_sublist.cons_cons id)

theorem Linked.declaring_descendants (linked : t.Linked) (isTop : t.IsTop root) :
    t.declaring (t.descendants root) = (t.lexicon root).usedAt fun _ => false := by
  simp only [declaring, lexicon, Lexicon.usedAt, Lexicon.mk.injEq, true_and]
  refine ⟨funext fun id => ?_, rfl⟩
  simp only [linked.mem_descendants_iff isTop.allocated]

end Tree

namespace Scopes

variable {s : Scopes} {l : Lexicon} {t : Tree} {node root : NodeId}

/-! ### Declaring what a node declares -/

@[simp] theorem owned_declare (s : Scopes) (t : Tree) (scope : ScopeId) (kind : BindingKind)
    (declaration identifier : NodeId) :
    (s.declare t scope kind declaration identifier).owned = s.owned := by
  rw [declare]
  split
  · rfl
  · split <;> rfl

def declareIn (t : Tree) (s : Scopes) (d : Declaration) : Scopes :=
  match s.owned[d.owner]? with
  | some scope => s.declare t scope d.kind d.declaration d.identifier
  | none => s

@[simp] theorem owned_declareIn (t : Tree) (s : Scopes) (d : Declaration) :
    (s.declareIn t d).owned = s.owned := by
  rw [declareIn]
  split
  · exact owned_declare ..
  · rfl

@[simp] theorem owned_foldl_declareIn (t : Tree) (s : Scopes) (ds : List Declaration) :
    (ds.foldl (declareIn t) s).owned = s.owned := by
  induction ds generalizing s with
  | nil => rfl
  | cons d rest induction => rw [List.foldl_cons, induction, owned_declareIn]

theorem foldl_declaredNames (t : Tree) (s : Scopes) {owner : NodeId} {scope : ScopeId}
    (owned : s.owned[owner]? = some scope) (kind : BindingKind) (declaration : NodeId)
    (identifiers : List NodeId) :
    (t.declaredNames (some owner) kind declaration identifiers).foldl (declareIn t) s =
      identifiers.foldl (fun s id => s.declare t scope kind declaration id) s := by
  simp only [Tree.declaredNames]
  induction identifiers generalizing s with
  | nil => rfl
  | cons head tail induction =>
    rw [List.filterMap_cons, List.foldl_cons]
    cases spelled : (t.node head).identifier? with
    | none =>
      have same : s.declare t scope kind declaration head = s := by rw [declare, spelled]
      rw [same]
      exact induction s owned
    | some name =>
      have same : s.declareIn t ⟨owner, name, kind, declaration, head⟩ =
          s.declare t scope kind declaration head := by
        simp only [declareIn, owned]
      simp only [Option.map_some, List.foldl_cons, same]
      exact induction _ (by rw [owned_declare, owned])

theorem describes_declarations (describes : s.Describes l) (regular : l.Regular)
    (noUses : ∀ id, l.uses id = none) (ds : List Declaration)
    (spelled : ∀ d ∈ ds, (t.node d.identifier).identifier? = some d.name)
    (opens : ∀ d ∈ ds, (l.scopes d.owner).isSome = true)
    (distinct : ((l.declared ++ ds).map (·.identifier)).Nodup) :
    (ds.foldl (declareIn t) s).Describes { l with declared := l.declared ++ ds } := by
  induction ds generalizing s l with
  | nil => simpa using describes
  | cons d rest induction =>
    rw [List.forall_mem_cons] at spelled opens
    have fresh : ∀ e ∈ l.declared, e.identifier ≠ d.identifier := by
      intro e member same
      rw [List.map_append, List.nodup_append] at distinct
      exact distinct.2.2 e.identifier (List.mem_map_of_mem member) d.identifier
        (List.mem_map_of_mem (List.mem_cons_self ..)) same
    obtain ⟨scope, owned⟩ := describes.owned d.owner opens.1
    have one : (s.declareIn t d).Describes (l.withDeclaration d) := by
      simp only [declareIn, owned]
      exact describes.declare regular noUses fresh owned spelled.1
    have all := induction one (regular.withDeclaration noUses fresh opens.1) noUses
      spelled.2 opens.2 (by simpa [Lexicon.withDeclaration] using distinct)
    simpa [Lexicon.withDeclaration] using all

theorem idsOf_eq_map {nodes : List NodeId} (owned : ∀ node ∈ nodes, s.owned[node]?.isSome = true) :
    s.idsOf nodes = nodes.map fun node => s.owned[node]?.getD default := by
  induction nodes with
  | nil => rfl
  | cons head tail induction =>
    rw [List.forall_mem_cons] at owned
    obtain ⟨id, isOwned⟩ := Option.isSome_iff_exists.mp owned.1
    rw [idsOf, List.filterMap_cons_some isOwned, List.map_cons, isOwned]
    congr 1
    exact induction owned.2

theorem Describes.hoistTarget_eq (describes : s.Describes l) (regular : l.Regular) {scope : ScopeId}
    {kind : ScopeKind} {outer : List NodeId} (owned : s.owned[node]? = some scope)
    (entry : l.scopes node = some (kind, outer))
    (kinds : ∀ place ∈ node :: outer, (l.scopes place).map (·.1) = t.scopeKind? place) :
    some (s.hoistTarget scope) =
      (t.hoistTarget? (node :: outer)).bind fun place => s.owned[place]? := by
  have everyOwned := describes.owned_of_scopes regular entry
  have isBlock :
      ∀ place ∈ node :: outer, decide ((s.scope (s.owned[place]?.getD default)).kind = .block) =
        decide (t.scopeKind? place = some .block) := by
    intro place member
    obtain ⟨id, isOwned⟩ := Option.isSome_iff_exists.mp (everyOwned place member)
    obtain ⟨placeKind, placeOuter, placeEntry, represents⟩ := describes.scope place id isOwned
    have same := kinds place member
    rw [placeEntry, Option.map_some] at same
    simp only [isOwned, Option.getD_some, represents.kind, ← same, Option.some.injEq]
  rw [hoistTarget, describes.chain_eq regular owned entry, idsOf_eq_map everyOwned,
    Tree.hoistTarget?]
  have drop : (((node :: outer).map fun place => s.owned[place]?.getD default).dropWhile
      fun id => decide ((s.scope id).kind = .block)) =
      ((node :: outer).dropWhile fun place => decide (t.scopeKind? place = some .block)).map
        fun place => s.owned[place]?.getD default := by
    rw [List.dropWhile_map]
    exact congrArg _ (Tree.dropWhile_congr isBlock)
  have isIn {place : NodeId} (member : place ∈ node :: outer) :
      some (s.owned[place]?.getD default) = s.owned[place]? := by
    obtain ⟨id, isOwned⟩ := Option.isSome_iff_exists.mp (everyOwned place member)
    rw [isOwned, Option.getD_some]
  simp only [drop]
  cases rest : (node :: outer).dropWhile fun place => decide (t.scopeKind? place = some .block) with
  | cons first others =>
    have member : first ∈ node :: outer := by
      have suffix := List.dropWhile_suffix (l := node :: outer)
        fun place => decide (t.scopeKind? place = some .block)
      rw [rest] at suffix
      exact suffix.subset (List.mem_cons_self ..)
    simp only [List.map_cons, List.head?_cons, Option.some_or, Option.bind_some]
    exact isIn member
  | nil =>
    simp only [List.map_nil, List.getLastD_eq_getLast?, List.getLast?_map, List.head?_nil,
      Option.none_or]
    obtain ⟨last, isLast⟩ := Option.ne_none_iff_exists'.mp
      (List.getLast?_eq_none_iff.not.mpr (List.cons_ne_nil node outer))
    rw [isLast, Option.map_some, Option.getD_some, Option.bind_some]
    exact isIn (List.mem_of_getLast? isLast)

theorem foldl_declarators (t : Tree) (s : Scopes) {owner : NodeId} {scope : ScopeId}
    (owned : s.owned[owner]? = some scope) (kind : BindingKind) (declarators : List NodeId) :
    (declarators.flatMap fun declarator =>
        t.declaredNames (some owner) kind declarator (t.namesIn declarator .target)).foldl
        (declareIn t) s =
      declarators.foldl (fun s declarator =>
        match t.node declarator with
        | .variableDeclarator pattern _ => s.declarePattern t scope kind declarator pattern
        | _ => s) s := by
  induction declarators generalizing s with
  | nil => rfl
  | cons declarator rest induction =>
    rw [List.flatMap_cons, List.foldl_append, List.foldl_cons,
      induction _ (by rw [owned_foldl_declareIn, owned]), foldl_declaredNames t s owned]
    congr 1
    cases shape : t.node declarator <;> simp [Tree.namesIn, Node.part, shape, declarePattern]

theorem foldl_params (t : Tree) (s : Scopes) {owner : NodeId} {scope : ScopeId}
    (owned : s.owned[owner]? = some scope) (kind : BindingKind) (declaration : NodeId)
    (params : List NodeId) :
    (t.declaredNames (some owner) kind declaration (params.flatMap t.patternNames)).foldl
        (declareIn t) s =
      params.foldl (fun s param => s.declarePattern t scope kind declaration param) s := by
  rw [foldl_declaredNames t s owned]
  induction params generalizing s with
  | nil => rfl
  | cons param rest induction =>
    rw [List.flatMap_cons, List.foldl_append, List.foldl_cons, declarePattern]
    refine induction _ ?_
    rw [← foldl_declaredNames t s owned, owned_foldl_declareIn, owned]

theorem declaredNames_nil (t : Tree) (owner : Option NodeId) (kind : BindingKind)
    (declaration : NodeId) :
    t.declaredNames owner kind declaration [] = [] := by
  cases owner <;> rfl

theorem foldl_name (t : Tree) (s : Scopes) (owner : Option NodeId) (kind : BindingKind)
    (declaration name : NodeId)
    (owned : ∀ place, owner = some place → ∃ id, s.owned[place]? = some id) :
    (t.declaredNames owner kind declaration [name]).foldl (declareIn t) s =
      match owner.bind fun place => s.owned[place]? with
      | some scope => s.declare t scope kind declaration name
      | none => s := by
  cases owner with
  | none => rfl
  | some place =>
    obtain ⟨scope, isOwned⟩ := owned place rfl
    rw [foldl_declaredNames t s isOwned, Option.bind_some, isOwned]
    rfl

theorem Describes.declareNode_eq (describes : s.Describes l) (regular : l.Regular)
    (linked : t.Linked) (entries : ∀ place ∈ t.scopesFrom node,
      l.scopes place = (t.scopeKind? place).map (·, t.scopesAround place)) :
    s.declareNode t ((t.scopesFrom node).head?.bind fun place => s.owned[place]?)
        ((t.scopesAround node).head?.bind fun place => s.owned[place]?) node =
      (t.declarationsAt node).foldl (declareIn t) s := by
  have ownedAt {place : NodeId} (member : place ∈ t.scopesFrom node) :
      ∃ id, s.owned[place]? = some id := by
    obtain ⟨-, opens⟩ := Tree.mem_scopesFrom.mp member
    refine describes.owned place ?_
    rw [entries place member, Option.isSome_map]
    exact opens
  have aroundFrom {place : NodeId} (member : place ∈ t.scopesAround node) :
      place ∈ t.scopesFrom node := by
    obtain ⟨above, opens⟩ := Tree.mem_scopesAround.mp member
    exact Tree.mem_scopesFrom.mpr ⟨Tree.isWithin_iff.mpr (.inr above), opens⟩
  cases shape : t.node node
  case variableDeclaration kind declarators =>
    have declarations : t.declarationsAt node = declarators.flatMap fun declarator =>
        t.declaredNames (if kind = .var then t.hoistTarget? (t.scopesFrom node)
          else (t.scopesFrom node).head?) (.ofVarKind kind) declarator
          (t.namesIn declarator .target) := by
      simp only [Tree.declarationsAt, shape, Node.tag, Node.part]
    rw [declarations]
    cases places : t.scopesFrom node with
    | nil =>
      have noOwner : (if kind = .var then t.hoistTarget? [] else ([] : List NodeId).head?) =
          none := by
        split <;> rfl
      have nothing : (declarators.flatMap fun _ => ([] : List Declaration)) = [] :=
        List.flatMap_eq_nil_iff.mpr fun _ _ => rfl
      rw [noOwner]
      simp only [Tree.declaredNames, nothing, declareNode, shape]
      rfl
    | cons place outer =>
      have placeMember : place ∈ t.scopesFrom node := by simp [places]
      obtain ⟨scope, owned⟩ := ownedAt placeMember
      -- The owner of the declared names, with its scope.
      obtain ⟨owner, isOwner, ownerOwned⟩ : ∃ owner,
          (if kind = .var then t.hoistTarget? (place :: outer) else (place :: outer).head?) =
            some owner ∧
          s.owned[owner]? = some (if kind = .var then s.hoistTarget scope else scope) := by
        split
        · have kinds : ∀ other ∈ place :: outer,
              (l.scopes other).map (·.1) = t.scopeKind? other := by
            intro other member
            rw [entries other (by rwa [places]), Option.map_map]
            exact congrFun Option.map_id _
          have entry := entries place placeMember
          obtain ⟨-, opens⟩ := Tree.mem_scopesFrom.mp placeMember
          obtain ⟨placeKind, isKind⟩ := Option.isSome_iff_exists.mp opens
          rw [isKind, Option.map_some, ← linked.scopesFrom_eq places] at entry
          have hoisted := describes.hoistTarget_eq regular owned entry kinds
          obtain ⟨owner, isOwner, ownerOwned⟩ := Option.bind_eq_some_iff.mp hoisted.symm
          exact ⟨owner, isOwner, ownerOwned⟩
        · exact ⟨place, rfl, owned⟩
      rw [isOwner]
      unfold declareNode
      simp only [shape, List.head?_cons, Option.bind_some, owned]
      exact (foldl_declarators t s ownerOwned _ _).symm
  case function f =>
    have opens : t.opens node = true := Tree.opens_of_function shape
    have places : t.scopesFrom node = node :: t.scopesAround node := by
      rw [Tree.scopesFrom, List.filter_cons_of_pos opens, Tree.scopesAround]
    obtain ⟨own, owned⟩ : ∃ id, s.owned[node]? = some id := ownedAt (by simp [places])
    have outerOwned (place : NodeId) (isHead : (t.scopesAround node).head? = some place) :
        ∃ id, s.owned[place]? = some id := ownedAt (aroundFrom (List.mem_of_mem_head? isHead))
    have named : s.declareFunctionName t own
        ((t.scopesAround node).head?.bind fun place => s.owned[place]?) node f =
        (if f.kind = .declaration then
          t.declaredNames (t.scopesAround node).head? .function node ((t.node node).part .name)
        else t.declaredNames (some node) .local_ node ((t.node node).part .name)).foldl
          (declareIn t) s := by
      cases isNamed : f.name with
      | none =>
        have part : (t.node node).part .name = [] := by simp [shape, Node.part, isNamed]
        rw [part, declaredNames_nil, declaredNames_nil, ite_self]
        unfold declareFunctionName
        rw [isNamed]
        rfl
      | some name =>
        have part : (t.node node).part .name = [name] := by simp [shape, Node.part, isNamed]
        unfold declareFunctionName
        rw [isNamed]
        cases isKind : f.kind with
        | declaration =>
          rw [if_pos rfl, part, foldl_name t s _ _ _ _ outerOwned]
          cases (t.scopesAround node).head?.bind fun place => s.owned[place]? <;> rfl
        | expression =>
          rw [if_neg (by simp), part, foldl_name t s _ _ _ _ (fun place same => by
            rw [← Option.some.inj same]
            exact ⟨own, owned⟩)]
          simp only [Option.bind_some, owned]
    have declarations : t.declarationsAt node =
        (if f.kind = .declaration then
          t.declaredNames (t.scopesAround node).head? .function node ((t.node node).part .name)
        else t.declaredNames (some node) .local_ node ((t.node node).part .name))
          ++ t.declaredNames (some node) .param node (f.params.flatMap t.patternNames) := by
      simp only [Tree.declarationsAt, Tree.namesIn, shape, Node.tag, Node.part]
    rw [declarations, List.foldl_append, ← named, places]
    unfold declareNode
    simp only [shape, List.head?_cons, Option.bind_some, owned]
    refine (foldl_params t _ ?_ .param node f.params).symm
    rw [named, owned_foldl_declareIn, owned]
  case classDef c =>
    obtain ⟨name, superClass, members, isDeclaration⟩ := c
    have scopeOwned (place : NodeId) (isHead : (t.scopesFrom node).head? = some place) :
        ∃ id, s.owned[place]? = some id := ownedAt (List.mem_of_mem_head? isHead)
    cases isDeclaration with
    | false => cases name <;> simp [Tree.declarationsAt, declareNode, shape, Node.tag]
    | true =>
      cases name with
      | none =>
        simp only [Tree.declarationsAt, shape, Node.tag, Node.part, if_true, Option.toList_none]
        rw [declaredNames_nil]
        unfold declareNode
        rw [shape]
        rfl
      | some name =>
        simp only [Tree.declarationsAt, shape, Node.tag, Node.part, if_true, Option.toList_some]
        rw [foldl_name t s _ _ _ _ scopeOwned]
        unfold declareNode
        simp only [shape]
        cases (t.scopesFrom node).head?.bind fun place => s.owned[place]? <;> rfl
  all_goals simp [Tree.declarationsAt, declareNode, shape, Node.tag]

/-! ### Going through a tree -/

/-- Opens the scope of a node and declares what the node itself declares. Gives the scope that
its children stand in. -/
def enter (t : Tree) (outer : Option ScopeId) (s : Scopes) (node : NodeId) :
    Option ScopeId × Scopes :=
  match t.scopeKind? node with
  | some kind =>
    (some (s.openScope kind node outer).1,
      (s.openScope kind node outer).2.declareNode t (some (s.openScope kind node outer).1) outer
        node)
  | none => (outer, s.declareNode t outer outer node)

theorem declareWithin_succ (t : Tree) (outer : Option ScopeId) (s : Scopes) (limit : Nat)
    (node : NodeId) :
    declareWithin t outer s (limit + 1) node =
      (t.node node).children.foldl
        (fun s' child => declareWithin t (s.enter t outer node).1 s' limit child)
        (s.enter t outer node).2 := by
  rw [declareWithin, enter]
  cases t.scopeKind? node <;> rfl

theorem scopesAround_child (linked : t.Linked) {child : NodeId}
    (held : t.parent? child = some node) :
    t.scopesAround child = t.scopesFrom node := by
  rw [Tree.scopesAround, linked.ancestors_of_parent held, Tree.scopesFrom]

variable {nodes : List NodeId}

theorem IsUpward.append (upward : t.IsUpward nodes) (fresh : node ∉ nodes)
    (above : ∀ a ∈ t.ancestors node, a ∈ nodes) : t.IsUpward (nodes ++ [node]) where
  distinct := by
    rw [List.nodup_append]
    refine ⟨upward.distinct, List.nodup_singleton node, ?_⟩
    rintro a member b isLast rfl
    rw [List.mem_singleton] at isLast
    exact fresh (isLast ▸ member)
  closed id member a isAbove := by
    rcases List.mem_append.mp member with member | member
    · exact List.mem_append_left _ (upward.closed id member a isAbove)
    · rw [List.mem_singleton] at member
      exact List.mem_append_left _ (above a (member ▸ isAbove))

theorem Describes.enter (describes : s.Describes (t.declaring nodes)) (linked : t.Linked)
    (upward : t.IsUpward nodes) (fresh : node ∉ nodes) (above : ∀ a ∈ t.ancestors node, a ∈ nodes)
    {inner : Option ScopeId} {s' : Scopes}
    (result : s.enter t ((t.scopesAround node).head?.bind fun place => s.owned[place]?) node =
      (inner, s')) :
    s'.Describes (t.declaring (nodes ++ [node])) ∧
      inner = ((t.scopesFrom node).head?.bind fun place => s'.owned[place]?) ∧
      ∀ other ∈ nodes, s'.owned[other]? = s.owned[other]? := by
  have nextUpward := IsUpward.append upward fresh above
  have nextRegular := linked.declaring_regular nextUpward
  have declared : (t.declaring (nodes ++ [node])).declared =
      (t.declaring nodes).declared ++ t.declarationsAt node := by simp [Tree.declaring]
  have fewer : (t.declaring nodes).declared.Sublist (t.declaring (nodes ++ [node])).declared := by
    rw [declared]
    exact List.sublist_append_left ..
  -- With the scope opened, only the declarations of the node are missing.
  generalize opened : ({ t.declaring (nodes ++ [node]) with
    declared := (t.declaring nodes).declared } : Lexicon) = l
  have regular : l.Regular := by
    rw [← opened]
    exact nextRegular.of_sublist fewer
  have entries : ∀ place ∈ t.scopesFrom node,
      l.scopes place = (t.scopeKind? place).map (·, t.scopesAround place) := by
    intro place member
    have isAbove := (Tree.mem_scopesFrom.mp member).1
    have inside := nextUpward.of_isWithin (List.mem_append_right _ (List.mem_singleton_self node))
      isAbove
    simp only [← opened, Tree.declaring, if_pos inside]
  have finish {start : Scopes} (startDescribes : start.Describes l) :
      (start.declareNode t ((t.scopesFrom node).head?.bind fun place => start.owned[place]?)
        ((t.scopesAround node).head?.bind fun place => start.owned[place]?) node).Describes
          (t.declaring (nodes ++ [node])) ∧
      (start.declareNode t ((t.scopesFrom node).head?.bind fun place => start.owned[place]?)
        ((t.scopesAround node).head?.bind fun place => start.owned[place]?) node).owned =
          start.owned := by
    rw [startDescribes.declareNode_eq regular linked entries, owned_foldl_declareIn]
    refine ⟨?_, rfl⟩
    have all := describes_declarations (t := t) startDescribes regular
      (fun id => by rw [← opened]; rfl) (t.declarationsAt node)
      (fun d member => (linked.introduces_of_mem member).spelled)
      (fun d member => ?_) ?_
    · rw [← opened] at all
      simpa only [← declared] using all
    · have introduces := linked.introduces_of_mem member
      rw [entries d.owner (Tree.mem_scopesFrom.mpr ⟨introduces.owner, introduces.opens⟩),
        Option.isSome_map]
      exact introduces.opens
    · rw [← opened]
      simp only [← declared]
      exact nextRegular.distinct
  have aroundIn {place : NodeId} (isHead : (t.scopesAround node).head? = some place) :
      place ∈ nodes :=
    above place (Tree.mem_scopesAround.mp (List.mem_of_mem_head? isHead)).1
  rw [Scopes.enter] at result
  cases isKind : t.scopeKind? node with
  | none =>
    have closed : t.opens node = false := by simp [Tree.opens, isKind]
    have same : t.scopesFrom node = t.scopesAround node := by
      rw [Tree.scopesFrom, List.filter_cons_of_neg (by simp [closed]), Tree.scopesAround]
    have lexicon : t.declaring nodes = l := by
      simp only [← opened, Tree.declaring, Lexicon.mk.injEq, and_true]
      refine funext fun id => ?_
      by_cases isNode : id = node
      · simp [isNode, fresh, isKind]
      · simp [isNode]
    rw [lexicon] at describes
    have all := finish describes
    simp only [isKind, Prod.mk.injEq] at result
    obtain ⟨rfl, rfl⟩ := result
    rw [same] at all ⊢
    rw [all.2]
    exact ⟨all.1, rfl, fun other _ => rfl⟩
  | some kind =>
    have opens : t.opens node = true := by simp [Tree.opens, isKind]
    have places : t.scopesFrom node = node :: t.scopesAround node := by
      rw [Tree.scopesFrom, List.filter_cons_of_pos opens, Tree.scopesAround]
    have lexicon : (t.declaring nodes).withScope node kind (t.scopesAround node) = l := by
      simp only [← opened, Tree.declaring, Lexicon.withScope, Lexicon.mk.injEq, and_true]
      refine funext fun id => ?_
      by_cases isNode : id = node
      · simp [isNode, isKind]
      · simp [isNode]
    have start := describes.openScope (linked.declaring_regular upward) kind (t.scopesAround node)
      (show (t.declaring nodes).scopes node = none by simp [Tree.declaring, fresh])
      (fun place rest isOuter => by
        have member : place ∈ t.scopesAround node := by simp [isOuter]
        obtain ⟨isAbove, placeOpens⟩ := Tree.mem_scopesAround.mp member
        rw [Tree.opens] at placeOpens
        simp [Tree.declaring, above place isAbove, placeOpens])
    have owned := s.owned_openScope kind node
      ((t.scopesAround node).head?.bind fun place => s.owned[place]?)
    rw [lexicon] at start
    simp only [isKind, Prod.mk.injEq] at result
    have isId : (s.openScope kind node
        ((t.scopesAround node).head?.bind fun place => s.owned[place]?)).1 = ⟨s.scopes.size⟩ := rfl
    rw [isId] at result
    generalize (s.openScope kind node
      ((t.scopesAround node).head?.bind fun place => s.owned[place]?)).2 =
      open_ at start owned result
    have stays {other : NodeId} (member : other ∈ nodes) :
        open_.owned[other]? = s.owned[other]? := by
      rw [owned, if_neg]
      rintro rfl
      exact fresh member
    have innerOwned : ((t.scopesFrom node).head?.bind fun place => open_.owned[place]?) =
        some ⟨s.scopes.size⟩ := by
      rw [places, List.head?_cons, Option.bind_some, owned, if_pos rfl]
    have outerOwned : ((t.scopesAround node).head?.bind fun place => open_.owned[place]?) =
        (t.scopesAround node).head?.bind fun place => s.owned[place]? := by
      cases isHead : (t.scopesAround node).head? with
      | none => rfl
      | some place => rw [Option.bind_some, Option.bind_some, stays (aroundIn isHead)]
    have all := finish start
    rw [innerOwned, outerOwned] at all
    obtain ⟨rfl, rfl⟩ := result
    rw [all.2]
    exact ⟨all.1, innerOwned.symm, fun other member => stays member⟩

structure Declared (t : Tree) (before : List NodeId) (s : Scopes) (nodes : List NodeId)
    (s' : Scopes) : Prop where
  describes : s'.Describes (t.declaring nodes)
  upward : t.IsUpward nodes
  owned : ∀ other ∈ before, s'.owned[other]? = s.owned[other]?

theorem declared_children (linked : t.Linked) {limit : Nat} (children : List NodeId)
    {inner : Option ScopeId}
    (each : ∀ child ∈ children, ∀ nodes s, s.Describes (t.declaring nodes) → t.IsUpward nodes →
      (nodes ++ t.descendantsWithin limit child).Nodup → (∀ a ∈ t.ancestors child, a ∈ nodes) →
      Declared t nodes s (nodes ++ t.descendantsWithin limit child)
        (declareWithin t ((t.scopesAround child).head?.bind fun place => s.owned[place]?)
          s limit child))
    (held : ∀ child ∈ children, t.parent? child = some node)
    (describes : s.Describes (t.declaring nodes)) (upward : t.IsUpward nodes)
    (distinct : (nodes ++ children.flatMap (t.descendantsWithin limit)).Nodup)
    (member : node ∈ nodes)
    (isInner : inner = (t.scopesFrom node).head?.bind fun place => s.owned[place]?) :
    Declared t nodes s (nodes ++ children.flatMap (t.descendantsWithin limit))
      (children.foldl (fun s' child => declareWithin t inner s' limit child) s) := by
  induction children generalizing nodes s with
  | nil =>
    simp only [List.flatMap_nil, List.append_nil, List.foldl_nil]
    exact ⟨describes, upward, fun _ _ => rfl⟩
  | cons child rest induction =>
    rw [List.forall_mem_cons] at each held
    rw [List.flatMap_cons, ← List.append_assoc] at distinct ⊢
    rw [List.foldl_cons]
    have isAround : inner = (t.scopesAround child).head?.bind fun place => s.owned[place]? := by
      rw [scopesAround_child linked held.1, isInner]
    have above : ∀ a ∈ t.ancestors child, a ∈ nodes := by
      intro a isAbove
      rw [linked.ancestors_of_parent held.1, List.mem_cons] at isAbove
      rcases isAbove with rfl | isAbove
      · exact member
      · exact upward.closed node member a isAbove
    have one := each.1 nodes s describes upward (distinct.sublist (List.sublist_append_left ..))
      above
    rw [← isAround] at one
    have innerAfter : inner = (t.scopesFrom node).head?.bind fun place =>
        (declareWithin t inner s limit child).owned[place]? := by
      refine isInner.trans ?_
      cases isHead : (t.scopesFrom node).head? with
      | none => rfl
      | some place =>
        have within := (Tree.mem_scopesFrom.mp (List.mem_of_mem_head? isHead)).1
        rw [Option.bind_some, Option.bind_some,
          one.owned place (upward.of_isWithin member within)]
    have others := induction each.2 held.2 one.describes one.upward distinct
      (List.mem_append_left _ member) innerAfter
    refine ⟨others.describes, others.upward, fun other isOld => ?_⟩
    rw [others.owned other (List.mem_append_left _ isOld), one.owned other isOld]

theorem declared_declareWithin (linked : t.Linked) (limit : Nat) (node : NodeId)
    (nodes : List NodeId) (s : Scopes) (describes : s.Describes (t.declaring nodes))
    (upward : t.IsUpward nodes) (distinct : (nodes ++ t.descendantsWithin limit node).Nodup)
    (above : ∀ a ∈ t.ancestors node, a ∈ nodes) :
    Declared t nodes s (nodes ++ t.descendantsWithin limit node)
      (declareWithin t ((t.scopesAround node).head?.bind fun place => s.owned[place]?) s
        limit node) := by
  induction limit generalizing node nodes s with
  | zero =>
    simp only [Tree.descendantsWithin, List.append_nil, declareWithin]
    exact ⟨describes, upward, fun _ _ => rfl⟩
  | succ limit induction =>
    rw [Tree.descendantsWithin, List.append_cons] at distinct ⊢
    have fresh : node ∉ nodes := by
      intro member
      rw [List.append_assoc, List.nodup_append] at distinct
      exact distinct.2.2 node member node (by simp) rfl
    rw [declareWithin_succ]
    generalize result : s.enter t
      ((t.scopesAround node).head?.bind fun place => s.owned[place]?) node = entered
    obtain ⟨inner, entered⟩ := entered
    obtain ⟨enteredDescribes, isInner, enteredOwned⟩ :=
      describes.enter linked upward fresh above result
    have below := declared_children linked (t.node node).children
      (fun child _ => induction child) (fun child => linked.mem_children.mp) enteredDescribes
      (IsUpward.append upward fresh above) distinct (by simp) isInner
    refine ⟨below.describes, below.upward, fun other isOld => ?_⟩
    rw [below.owned other (List.mem_append_left _ isOld), enteredOwned other isOld]

/-! ### Attaching the uses -/

theorem Describes.attachUses (linked : t.Linked) (isTop : t.IsTop root) (regular : l.Regular)
    (sameScopes : l.scopes = (t.lexicon root).scopes) (sameUses : l.uses = (t.lexicon root).uses)
    {keep : NodeId → Bool} (describes : s.Describes (l.usedAt keep)) {ids : List NodeId}
    (distinct : ids.Nodup) (fresh : ∀ id ∈ ids, keep id = false)
    (attached : ∀ id ∈ ids, t.isWithin id root = true) :
    (ids.foldl (Scopes.attachUse t) s).Describes (l.usedAt fun id => keep id || id ∈ ids) := by
  induction ids generalizing s keep with
  | nil => simpa using describes
  | cons head rest induction =>
    rw [List.nodup_cons] at distinct
    rw [List.forall_mem_cons] at fresh attached
    have isUse : l.uses head = t.useAt? head := by
      simp only [sameUses, Tree.lexicon, attached.1, if_true]
    have one :
        (s.attachUse t head).Describes (l.usedAt fun id => keep id || decide (id = head)) := by
      cases use : t.useAt? head with
      | none =>
        have same : s.attachUse t head = s := attachUse_of_none s use
        have lexicon : (l.usedAt fun id => keep id || decide (id = head)) = l.usedAt keep := by
          simp only [Lexicon.usedAt, Lexicon.mk.injEq, true_and]
          funext id
          by_cases isHead : id = head
          · simp [isHead, isUse, use]
          · simp [isHead]
        rw [same, lexicon]
        exact describes
      | some use' =>
        have notDeclared : ∀ e ∈ l.declared, e.identifier ≠ head := by
          rintro e member rfl
          rw [regular.unused e member, use] at isUse
          cases isUse
        have attachedUse := describes.attachUse (regular.usedAt keep) linked isTop
          sameScopes attached.1 (by simp [Lexicon.usedAt, fresh.1]) notDeclared
        have lexicon : (l.usedAt fun id => keep id || decide (id = head)) =
            (l.usedAt keep).withUse head use' := by
          simp only [Lexicon.usedAt, Lexicon.withUse, Lexicon.mk.injEq, true_and]
          funext id
          by_cases isHead : id = head
          · simp [isHead, isUse, use]
          · simp [isHead]
        rw [lexicon]
        simpa only [use] using attachedUse
    have others := induction one distinct.2 (fun id member => by
      have different : id ≠ head := fun same => distinct.1 (same ▸ member)
      simp [fresh.2 id member, different]) attached.2
    rw [List.foldl_cons]
    have lexicon : (fun id => keep id || decide (id ∈ head :: rest)) =
        fun id => keep id || decide (id = head) || decide (id ∈ rest) := by
      funext id
      simp [Bool.or_assoc]
    rw [lexicon]
    exact others

/-- Before any use is attached, the table describes the lexicon without its uses. -/
theorem describes_declareWithin (linked : t.Linked) (isTop : t.IsTop root) :
    (declareWithin t none empty t.size root).Describes
      ((t.lexicon root).usedAt fun _ => false) := by
  have noAncestors := Tree.ancestors_of_root isTop.top
  have start : empty.Describes (t.declaring []) := by
    have same : t.declaring [] = .empty := by simp [Tree.declaring, Lexicon.empty]
    rw [same]
    exact describes_empty
  have declared := declared_declareWithin linked t.size root [] empty start
    ⟨List.nodup_nil, by simp⟩ (linked.nodup_descendants isTop.allocated) (by simp [noAncestors])
  have noOuter : ((t.scopesAround root).head?.bind fun place => empty.owned[place]?) = none := by
    simp [Tree.scopesAround, noAncestors]
  have describes := declared.describes
  rw [noOuter, List.nil_append] at describes
  rw [← linked.declaring_descendants isTop]
  exact describes

theorem describes_ofTree (linked : t.Linked) (isTop : t.IsTop root) {result : Scopes}
    (made : ofTree t root = .ok result) : result.Describes (t.lexicon root) := by
  rw [ofTree] at made
  split at made
  · cases made
  · cases made
    have all := (describes_declareWithin linked isTop).attachUses linked isTop
      (linked.regular isTop) rfl rfl (linked.nodup_descendants isTop.allocated) (by simp) fun id =>
        (linked.mem_descendants_iff isTop.allocated).mp
    have lexicon : (t.lexicon root).usedAt (fun id => false || decide (id ∈ t.descendants root)) =
        t.lexicon root := by
      simp only [Lexicon.usedAt, Tree.lexicon, Lexicon.mk.injEq, true_and,
        linked.mem_descendants_iff isTop.allocated]
      funext id
      cases t.isWithin id root <;> rfl
    rw [lexicon] at all
    exact all

end Scopes

end Unravel
