import Unravel.Proofs.Eval.Confined
import Unravel.Proofs.Eval.Outside
import Unravel.Proofs.Scope.Renamed

/-!
Evaluation does not look at the names of variables. If everything that belongs to a binding gets a
name that the program does not have, all expressions keep their values or the lack of one
(`Program.evaluate?_of_renamed`): what evaluation decides by a name it decides where the name is
bound to nothing.
-/

namespace Unravel

theorem mapM_congr {α β : Type} {f g : α → Option β} {l : List α} (same : ∀ a ∈ l, f a = g a) :
    l.mapM f = l.mapM g := by
  induction l with
  | nil => rfl
  | cons head rest induction =>
    rw [List.forall_mem_cons] at same
    rw [List.mapM_cons, List.mapM_cons, same.1, induction same.2]

theorem foldlM_congr {α β : Type} {f g : β → α → Option β} {l : List α} {start : β}
    (same : ∀ b, ∀ a ∈ l, f b a = g b a) : l.foldlM f start = l.foldlM g start := by
  induction l generalizing start with
  | nil => rfl
  | cons head rest induction =>
    rw [List.foldlM_cons, List.foldlM_cons, same start head (List.mem_cons_self ..)]
    exact congrArg _
      (funext fun next => induction fun b a member => same b a (List.mem_cons_of_mem _ member))

theorem Node.exists_of_isIdentifier {α : Type} {n : Node α} (holds : n.isIdentifier = true) :
    ∃ name, n = .identifier name := by
  cases n <;> simp_all [isIdentifier, identifier?]

namespace Tree

variable {t after : Tree} {root id parent : NodeId} {ids : List NodeId} {name : String}
  {d : Declaration}

namespace Renamed

variable (renamed : t.Renamed ids name after)

include renamed

theorem binds (binds : after.Binds id) : t.Binds id := by
  induction binds with
  | place isPlace held =>
    rw [renamed.part] at held
    exact .place isPlace held
  | nested _ held induction =>
    rw [renamed.part] at held
    exact .nested induction held

theorem wellBound (wellBound : t.WellBound) : after.WellBound where
  pattern {id} binds := by
    rw [renamed.node_congr Node.isPattern (fun _ _ => rfl)]
    exact wellBound.pattern (renamed.binds binds)
  declarator held := by
    rw [renamed.part] at held
    rw [renamed.node_congr Node.isDeclarator (fun _ _ => rfl)]
    exact wellBound.declarator held

/-- Respelled everything that means one declaration renames it in the lexicon of the tree. -/
theorem lexicon (linked : t.Linked) (isTop : t.IsTop root)
    (bound : (t.lexicon root).binder? d.owner d.name = some d)
    (mem_iff : ∀ id, id ∈ ids ↔ (t.lexicon root).meaning? id = some d)
    (fresh : ∀ id, t.isWithin id root = true → (t.node id).identifier? ≠ some name) :
    (t.lexicon root).Renamed d ids name (after.lexicon root) where
  regular := linked.regular isTop
  laterRegular := (renamed.linked linked).regular (renamed.isTop isTop)
  bound := bound
  mem_iff := mem_iff
  undeclared e member := by
    rintro rfl
    exact fresh e.identifier (linked.scopes_owner isTop member).1
      (linked.spelled_of_mem_declared isTop member)
  unused id use isUse := by
    rintro rfl
    simp only [Tree.lexicon, Option.ite_none_right_eq_some, useAt?, Option.bind_eq_some_iff,
      Option.some.injEq] at isUse
    obtain ⟨attached, name, spelled, -, rfl⟩ := isUse
    exact fresh id attached spelled
  declared := renamed.declared_eq
  uses := renamed.uses_eq

end Renamed

end Tree

namespace Program

variable {p q : Program} {binding : BindingId} {ids : List NodeId} {name : String} {d : Declaration}
  {id at_ base key : NodeId}

/-- The identifiers of a binding: the one that it was made for, and those that read and write it. -/
def identifiersOf (p : Program) (binding : BindingId) : List NodeId :=
  (p.binding binding).identifier ::
  ((p.binding binding).references ++ (p.binding binding).mutations)

/-- The program in which a binding has another name, made from its tree. -/
def renamed (p : Program) (binding : BindingId) (name : String) : Except Error Program :=
  ofTree (p.tree.rename (p.identifiersOf binding) name) p.root

theorem Sound.exists_of_live (sound : p.Sound) (live : binding ∈ p.scopes.liveIds) :
    ∃ d, p.lexicon.binder? d.owner d.name = some d ∧ p.scopes.find? d.owner d.name = some binding ∧
      p.scopes.Stands binding d := by
  simp only [Scopes.liveIds, List.mem_filter, List.mem_map, List.mem_range,
    Bool.not_eq_true'] at live
  obtain ⟨⟨index, inside, rfl⟩, notRetired⟩ := live
  obtain ⟨d, bound, found⟩ := sound.describes.stands_of_live inside notRetired
  obtain ⟨other, alsoFound, stands⟩ := sound.exists_stands bound
  rw [found, Option.some.injEq] at alsoFound
  exact ⟨d, bound, found, alsoFound ▸ stands⟩

theorem Sound.mem_identifiersOf (sound : p.Sound)
    (bound : p.lexicon.binder? d.owner d.name = some d)
    (found : p.scopes.find? d.owner d.name = some binding) (stands : p.scopes.Stands binding d) :
    id ∈ p.identifiersOf binding ↔ p.lexicon.meaning? id = some d := by
  have regular := sound.rooted.linked.regular sound.rooted.isTop
  have isDeclared := (Lexicon.binder?_some bound).1
  have reads := (sound.describes.references d binding bound found).2 id
  have writes := (sound.describes.mutations d binding bound found).2 id
  have identifier : (p.binding binding).identifier = d.identifier := stands.identifier
  rw [identifiersOf, List.mem_cons, List.mem_append, identifier]
  constructor
  · rintro (rfl | isRead | isWritten)
    · rw [regular.meaning?_of_declared isDeclared, bound]
    · exact Lexicon.meaning?_of_reads (reads.mp isRead)
    · exact regular.meaning?_of_writes (writes.mp isWritten)
  · intro means
    by_cases same : id = d.identifier
    · exact .inl same
    · exact .inr ((regular.reads_or_writes means same).imp reads.mpr writes.mpr)

theorem Steady.baseOf_call (steady : p.Steady) {arguments : List NodeId}
    (attached : p.tree.isWithin id p.root = true) (shape : p.node id = .call base arguments)
    (isIdentifier : (p.node base).isIdentifier = true) :
    p.BaseOf id base := by
  have linked := steady.linked
  have held : p.tree.parent? base = some id := by
    rw [← linked.mem_children, ← node, shape]
    simp [Node.children]
  have isUse : (p.tree.role base).isUse = true := by
    have shape : p.tree.node id = .call base arguments := shape
    rw [Tree.role, held]
    simp [shape, Role.isUse, Role.reads]
  refine ⟨attached, linked.isWithin_trans (linked.isWithin_of_parent held) attached,
    isUse, fun _ => ?_⟩
  refine linked.sight_of_child held (linked.not_binds_of_isUse isUse) (Tree.opens_of_isSilent ?_)
    (steady.not_binds_of_not_isPattern (by rw [shape]; rfl)) (Tree.opens_of_isSilent ?_)
  · cases named : p.tree.node base <;> simp_all [node, Node.isIdentifier, Node.identifier?,
      Node.isSilent]
  · rw [← node, shape]
    rfl

theorem Steady.attached_init (steady : p.Steady) {init : NodeId} (certain : p.Certain d init)
    (isDeclared : d ∈ p.lexicon.declared) : p.tree.isWithin init p.root = true := by
  have linked := steady.linked
  have held {child : NodeId} (member : child ∈ [d.identifier, init]) :
      p.tree.isWithin child d.declaration = true := by
    apply linked.isWithin_of_parent
    rw [← linked.mem_children, ← node, certain.shape]
    exact member
  have attached := (linked.scopes_owner steady.isTop isDeclared).1
  exact linked.isWithin_trans (held (by simp))
    (linked.isWithin_root_of_above steady.isTop attached (held (List.mem_cons_self ..)))

theorem evaluateKey_congr {eval later : NodeId → Option Value} {computed : Bool}
    (same : later key = eval key) (plain : computed = false → q.node key = p.node key) :
    q.evaluateKey later key computed = p.evaluateKey eval key computed := by
  cases computed with
  | true =>
    have isValue (p : Program) (eval : NodeId → Option Value) :
        p.evaluateKey eval key true = (eval key).bind keyText? := by
      unfold evaluateKey
      cases p.node key <;> rfl
    rw [isValue, isValue, same]
  | false =>
    unfold evaluateKey
    rw [plain rfl]
    cases p.node key <;> rfl

theorem evaluateMember_congr {eval later : NodeId → Option Value} {text? : Value → Option String}
    {computed : Bool} (same : later key = eval key)
    (plain : computed = false → q.node key = p.node key) :
    q.evaluateMember text? later key computed = p.evaluateMember text? eval key computed := by
  cases computed with
  | true => exact congrArg (Option.bind · text?) same
  | false => exact congrArg Node.identifier? (plain rfl)

structure Respelled (p : Program) (d : Declaration) (ids : List NodeId) (name : String)
    (q : Program) : Prop where
  steady : p.Steady
  renamedSteady : q.Steady
  root : q.root = p.root
  tree : p.tree.Renamed ids name q.tree
  lexicon : p.lexicon.Renamed d ids name q.lexicon

namespace Respelled

variable (respelled : p.Respelled d ids name q)

include respelled

theorem bindingOf?_eq_none_iff : q.bindingOf? id = none ↔ p.bindingOf? id = none := by
  rw [respelled.steady.sound.bindingOf?_eq_none_iff,
    respelled.renamedSteady.sound.bindingOf?_eq_none_iff, respelled.lexicon.meaning?_eq,
    Option.map_eq_none_iff]

theorem node_of_unbound (unbound : p.bindingOf? id = none) : q.node id = p.node id := by
  rw [node, node, respelled.tree.node, if_neg]
  rw [respelled.lexicon.mem_iff, respelled.steady.sound.bindingOf?_eq_none_iff.mp unbound]
  simp

theorem baseOf (isBase : p.BaseOf at_ base) : q.BaseOf at_ base where
  attached := by
    rw [respelled.tree.isWithin, respelled.root]
    exact isBase.attached
  attachedBase := by
    rw [respelled.tree.isWithin, respelled.root]
    exact isBase.attachedBase
  isUse := by
    rw [respelled.tree.role]
    exact isBase.isUse
  sight isIdentifier := by
    rw [respelled.tree.sight]
    apply isBase.sight
    rwa [node, respelled.tree.node_congr Node.isIdentifier fun _ _ => rfl] at isIdentifier

theorem globalBase?_eq (isBase : p.BaseOf at_ base) :
    q.globalBase? at_ base = p.globalBase? at_ base := by
  have isBaseAfter := respelled.baseOf isBase
  have shape := respelled.tree.identifier? base
  rw [globalBase?, globalBase?]
  cases spelled : (p.node base).identifier? with
  | none =>
    rw [node] at spelled
    rw [node, shape, spelled]
    rfl
  | some old =>
    rw [node] at spelled
    rw [spelled, Option.map_some] at shape
    have before := respelled.steady.bindingOf?_base isBase spelled
    have later := respelled.renamedSteady.bindingOf?_base (respelled.baseOf isBase) shape
    have unbound : q.isUnbound at_ (if base ∈ ids then name else old) = p.isUnbound at_ old := by
      rw [Bool.eq_iff_iff, ← before, ← later]
      exact respelled.bindingOf?_eq_none_iff
    rw [node, shape, Option.filter_some, Option.filter_some, unbound]
    split
    · rename_i isGlobal
      have same := respelled.node_of_unbound (before.mpr isGlobal)
      rw [node, node] at same
      rw [← shape, same, spelled]
    · rfl

theorem node_of_label (held : key ∈ (p.node id).part .label) : q.node key = p.node key :=
  respelled.node_of_unbound (respelled.steady.sound.bindingOf?_of_label held)

theorem constantInit?_eq {e : Declaration} {other : BindingId} {use : NodeId}
    (bound : p.lexicon.binder? e.owner e.name = some e)
    (found : p.scopes.find? e.owner e.name = some binding) (stands : p.scopes.Stands binding e)
    (later : q.lexicon.binder? (e.renamed ids name).owner (e.renamed ids name).name =
      some (e.renamed ids name))
    (laterFound : q.scopes.find? (e.renamed ids name).owner (e.renamed ids name).name = some other)
    (laterStands : q.scopes.Stands other (e.renamed ids name)) :
    q.constantInit? use other = p.constantInit? use binding := by
  have isConstant : (q.binding other).isConstant = (p.binding binding).isConstant := by
    rw [Bool.eq_iff_iff, respelled.steady.sound.isConstant_iff bound found,
      respelled.renamedSteady.sound.isConstant_iff later laterFound]
    simp only [respelled.lexicon.writes_iff (Lexicon.binder?_some bound).1]
  have isUnconditional : q.scopes.isUnconditional q.tree other =
      p.scopes.isUnconditional p.tree binding := by
    have conditional (id : NodeId) : Scopes.isConditional (q.tree.node id) =
        Scopes.isConditional (p.tree.node id) :=
      respelled.tree.node_congr Scopes.isConditional (fun _ _ => rfl) id
    rw [respelled.steady.sound.isUnconditional_eq stands,
      respelled.renamedSteady.sound.isUnconditional_eq laterStands, Declaration.owner_renamed,
      Declaration.declaration_renamed, respelled.tree.ancestors]
    simp only [conditional]
  have kind : (q.binding other).kind = (p.binding binding).kind := by
    exact (laterStands.kind.trans Declaration.kind_renamed).trans stands.kind.symm
  have declaration : (q.binding other).declaration = (p.binding binding).declaration :=
    (laterStands.declaration.trans Declaration.declaration_renamed).trans stands.declaration.symm
  have identifier : (q.binding other).identifier = (p.binding binding).identifier :=
    (laterStands.identifier.trans Declaration.identifier_renamed).trans stands.identifier.symm
  simp only [constantInit?, isConstant, isUnconditional, kind, declaration, identifier,
    respelled.tree.isWithin, respelled.tree.precedes, node]
  rcases respelled.tree.node_cases (p.binding binding).declaration with same | ⟨old, before, later⟩
  · rw [same]
  · rw [before, later]

/-! ### One level of evaluation -/

theorem attached_child {child : NodeId} (attached : p.tree.isWithin id p.root = true)
    (held : child ∈ (p.node id).children) : p.tree.isWithin child p.root = true := by
  have linked := respelled.steady.linked
  exact linked.isWithin_trans (linked.isWithin_of_parent (linked.mem_children.mp held)) attached

theorem node_eq (plain : (p.node id).isIdentifier = false) : q.node id = p.node id :=
  respelled.tree.node_of_not_isIdentifier plain

theorem calledGlobal_eq {callee : NodeId} {arguments : List NodeId} {args : List Value}
    {old spelled : String} (attached : p.tree.isWithin id p.root = true)
    (shape : p.node id = .call callee arguments) (called : p.node callee = .identifier old)
    (calledLater : q.node callee = .identifier spelled) :
    (if q.isUnbound id spelled then Builtin.global? spelled args else none) =
      if p.isUnbound id old then Builtin.global? old args else none := by
  have asBase {p : Program} {old : String} (called : p.node callee = .identifier old) :
      (if p.isUnbound id old then Builtin.global? old args else none) =
        (p.globalBase? id callee).bind fun name => Builtin.global? name args := by
    rw [globalBase?, called, Node.identifier?, Option.filter_some]
    split <;> rfl
  rw [asBase called, asBase calledLater,
    respelled.globalBase?_eq (respelled.steady.baseOf_call attached shape (by rw [called]; rfl))]

theorem exists_identifier {old : String} (shape : p.node id = .identifier old) :
    ∃ spelled, q.node id = .identifier spelled := by
  rcases respelled.tree.node_cases id with unchanged | ⟨-, -, afterwards⟩
  · exact ⟨old, unchanged.trans shape⟩
  · exact ⟨name, afterwards⟩

section Step

variable {eval later : NodeId → Option Value}
  (same : ∀ part, p.tree.isWithin part p.root = true → later part = eval part)

include same

theorem evaluateEntry_eq {entries : List (String × Value)}
    (attached : p.tree.isWithin id p.root = true) :
    q.evaluateEntry later entries id = p.evaluateEntry eval entries id := by
  have below := fun child held => same child (respelled.attached_child attached held)
  rw [evaluateEntry, evaluateEntry]
  rcases respelled.tree.node_cases id with unchanged | ⟨old, before, afterwards⟩
  · rw [node, unchanged, ← node]
    cases shape : p.node id with
    | property key value computed =>
      rw [shape] at below
      have isKey : computed = false → q.node key = p.node key := by
        rintro rfl
        apply respelled.node_of_label
        rw [shape]
        exact List.mem_singleton_self _
      dsimp only
      rw [evaluateKey_congr (below key (by simp [Node.children])) isKey,
        below value (by simp [Node.children])]
    | _ => rfl
  · rw [node, afterwards, node, before]

theorem evaluateStep_identifier {old : String} (shape : p.node id = .identifier old) :
    q.evaluateStep later id = p.evaluateStep eval id := by
  rw [evaluateStep, evaluateStep, shape]
  cases belongs : p.bindingOf? id with
  | none =>
    rw [respelled.node_of_unbound belongs, shape]
    simp only [respelled.bindingOf?_eq_none_iff.mpr belongs]
  | some binding =>
    have steady := respelled.steady
    obtain ⟨e, means, stands⟩ := steady.sound.exists_of_bindingOf? belongs
    have bound := Lexicon.meaning?_some means
    have isDeclared := (Lexicon.binder?_some bound).1
    have found : p.scopes.find? e.owner e.name = some binding := by
      rw [← belongs, steady.sound.bindingOf?_eq, means, Option.bind_some]
    have meansLater := (respelled.lexicon.meaning?_iff isDeclared).mpr means
    obtain ⟨other, belongsLater, standsLater⟩ :=
      respelled.renamedSteady.sound.exists_of_meaning? meansLater
    have foundLater : q.scopes.find? (e.renamed ids name).owner (e.renamed ids name).name =
        some other := by
      rw [← belongsLater, respelled.renamedSteady.sound.bindingOf?_eq, meansLater, Option.bind_some]
    have sameInit : q.constantInit? id other = p.constantInit? id binding :=
      respelled.constantInit?_eq bound found stands (Lexicon.meaning?_some meansLater)
        foundLater standsLater
    obtain ⟨spelled, shapeLater⟩ := respelled.exists_identifier shape
    rw [shapeLater]
    simp only [belongsLater, sameInit]
    cases isInit : p.constantInit? id binding with
    | none => rfl
    | some init =>
      have certain := steady.certain_of_constantInit? stands isInit
      simp only [Option.bind_eq_bind, Option.bind_some,
        same init (steady.attached_init certain isDeclared)]

theorem evaluateStep_eq (attached : p.tree.isWithin id p.root = true) :
    q.evaluateStep later id = p.evaluateStep eval id := by
  cases isIdentifier : (p.node id).isIdentifier with
  | true =>
    obtain ⟨old, shape⟩ := Node.exists_of_isIdentifier isIdentifier
    exact respelled.evaluateStep_identifier same shape
  | false =>
    have steady := respelled.steady
    have inside (child : NodeId) (held : child ∈ (p.node id).children) :
        p.tree.isWithin child p.root = true :=
      respelled.attached_child attached held
    have below := fun child held => same child (inside child held)
    have plain {parent key base : NodeId} {computed : Bool}
        (shape : p.node parent = .member base key computed) (named : computed = false) :
        q.node key = p.node key := by
      apply respelled.node_of_label
      rw [shape, named]
      exact List.mem_singleton_self _
    rw [evaluateStep, evaluateStep, respelled.node_eq isIdentifier]
    cases shape : p.node id with
    | array elements =>
      rw [shape] at below
      have sameElements : elements.mapM later = elements.mapM eval := mapM_congr below
      dsimp only
      rw [sameElements]
    | object properties =>
      rw [shape] at inside
      have sameEntries : properties.foldlM (q.evaluateEntry later) [] =
          properties.foldlM (p.evaluateEntry eval) [] :=
        foldlM_congr fun entries property held => respelled.evaluateEntry_eq same
          (inside property held)
      dsimp only
      rw [sameEntries]
    | unary operator argument =>
      rw [shape] at below
      dsimp only
      rw [node, node, respelled.tree.isFunction, below argument (by simp [Node.children])]
    | binary operator left right =>
      rw [shape] at below
      dsimp only
      rw [below left (by simp [Node.children]), below right (by simp [Node.children])]
    | logical operator left right =>
      rw [shape] at below
      dsimp only
      rw [below left (by simp [Node.children]), below right (by simp [Node.children])]
    | conditional test consequent alternate =>
      rw [shape] at below
      dsimp only
      rw [below test (by simp [Node.children]), below consequent (by simp [Node.children]),
        below alternate (by simp [Node.children])]
    | sequence expressions =>
      rw [shape] at below
      have sameParts : expressions.mapM later = expressions.mapM eval := mapM_congr below
      dsimp only
      rw [sameParts]
    | member base key computed =>
      rw [shape] at below
      dsimp only
      rw [evaluateMember_congr (below key (by simp [Node.children])) (plain shape),
        respelled.globalBase?_eq (steady.baseOf_member attached shape),
        below base (by simp [Node.children])]
    | call callee arguments =>
      rw [shape] at below inside
      have sameArguments : arguments.mapM later = arguments.mapM eval :=
        mapM_congr fun argument held => below argument (List.mem_cons_of_mem _ held)
      dsimp only
      rw [sameArguments]
      congr 1
      funext args
      cases called : p.node callee with
      | identifier old =>
        obtain ⟨spelled, calledLater⟩ := respelled.exists_identifier called
        rw [calledLater]
        exact respelled.calledGlobal_eq attached shape called calledLater
      | member base key computed =>
        rw [respelled.node_eq (by rw [called]; rfl), called]
        have isCallee := inside callee (by simp [Node.children])
        have below := fun child held => same child (respelled.attached_child isCallee held)
        rw [called] at below
        dsimp only
        rw [evaluateMember_congr (below key (by simp [Node.children])) (plain called),
          respelled.globalBase?_eq (steady.baseOf_callee attached shape called),
          below base (by simp [Node.children])]
      | _ => rw [respelled.node_eq (by rw [called]; rfl), called]
    | identifier old =>
      rw [shape] at isIdentifier
      cases isIdentifier
    | _ => rfl

end Step

theorem evaluateWithin_eq {limit : Nat} (attached : p.tree.isWithin id p.root = true) :
    q.evaluateWithin limit id = p.evaluateWithin limit id := by
  induction limit generalizing id with
  | zero => rfl
  | succ limit induction =>
    rw [evaluateWithin_succ, evaluateWithin_succ]
    exact respelled.evaluateStep_eq (fun part attached => induction attached) attached

end Respelled

/--
Where a binding gets a name that the program does not have, every expression keeps its value, or the
lack of one. -/
theorem evaluate?_of_renamed (reached : p.Reached) (verified : p.verify = .ok ())
    (wellBound : p.tree.WellBound) (live : binding ∈ p.scopes.liveIds)
    (fresh : ∀ id, p.isAttached id = true → (p.node id).identifier? ≠ some name) :
    ∃ q, p.renamed binding name = .ok q ∧
      ∀ id, p.isAttached id = true → q.isAttached id = true ∧ q.evaluate? id = p.evaluate? id := by
  have steady : p.Steady := ⟨reached.sound verified, wellBound⟩
  have linked := steady.linked
  simp only [isAttached_eq linked steady.isTop.top] at fresh ⊢
  obtain ⟨d, bound, found, stands⟩ := steady.sound.exists_of_live live
  have mem_iff (id : NodeId) : id ∈ p.identifiersOf binding ↔ p.lexicon.meaning? id = some d :=
    steady.sound.mem_identifiersOf bound found stands
  have isIdentifier : ∀ id ∈ p.identifiersOf binding, ∃ old, p.tree.node id = .identifier old := by
    intro id member
    exact Node.exists_of_isIdentifier (steady.sound.isIdentifier_of_meaning?
      ((mem_iff id).mp member))
  have renamed : p.tree.Renamed _ name _ := Tree.renamed_rename isIdentifier
  obtain ⟨body, isProgram⟩ := steady.sound.rooted.isProgram
  rw [node] at isProgram
  have isProgramLater : (p.tree.rename (p.identifiersOf binding) name).node p.root =
      .program body := by
    rw [renamed.node_of_not_isIdentifier (by rw [isProgram]; rfl), isProgram]
  obtain ⟨scopes, made, renamedSteady⟩ := exists_steady _ p.root (renamed.linked linked)
    (renamed.isTop steady.isTop) (renamed.wellBound wellBound) isProgramLater
  refine ⟨_, made, fun id attached => ?_⟩
  have respelled : p.Respelled d (p.identifiersOf binding) name
      ⟨p.tree.rename (p.identifiersOf binding) name, p.root, scopes, false⟩ :=
    ⟨steady, renamedSteady, rfl, renamed, renamed.lexicon linked steady.isTop bound mem_iff fresh⟩
  refine ⟨?_, respelled.evaluateWithin_eq attached⟩
  rw [isAttached_eq renamedSteady.linked renamedSteady.isTop.top]
  exact (congrFun (congrFun renamed.isWithin id) p.root).trans attached

/-! ### An instance -/

/-- The tree of `const NaN = 2; NaN;`. -/
def shadowedGlobal : Tree :=
  ⟨#[⟨.identifier "NaN", some ⟨2⟩⟩, ⟨.literal (.number 2.0), some ⟨2⟩⟩,
    ⟨.variableDeclarator ⟨0⟩ (some ⟨1⟩), some ⟨3⟩⟩, ⟨.variableDeclaration .const [⟨2⟩], some ⟨6⟩⟩,
    ⟨.identifier "NaN", some ⟨5⟩⟩, ⟨.expressionStatement ⟨4⟩, some ⟨6⟩⟩,
    ⟨.program [⟨3⟩, ⟨5⟩], none⟩]⟩

/-- A variable with the name of a global may be given any other name. -/
theorem exists_evaluate?_of_renamed : ∃ p binding q, ofTree shadowedGlobal ⟨6⟩ = .ok p ∧
    p.bindingOf? ⟨4⟩ = some binding ∧ p.renamed binding "x" = .ok q ∧
      q.evaluate? ⟨4⟩ = p.evaluate? ⟨4⟩ := by
  obtain ⟨scopes, made, steady⟩ := exists_steady shadowedGlobal ⟨6⟩
    (Tree.linked_of_checks (by decide)) ⟨by decide, by decide⟩
    (Tree.wellBound_of_bindsWell (by decide)) rfl
  have means : (shadowedGlobal.lexicon ⟨6⟩).meaning? ⟨4⟩ = some ⟨⟨6⟩, "NaN", .const, ⟨2⟩, ⟨0⟩⟩ := by
    decide
  obtain ⟨binding, belongs, stands⟩ := steady.sound.exists_of_meaning? means
  have live : binding ∈ scopes.liveIds := by
    simp only [Scopes.liveIds, List.mem_filter, List.mem_map, List.mem_range, Bool.not_eq_true']
    exact ⟨⟨binding.index, stands.index, rfl⟩, stands.live⟩
  have fresh : ∀ id, Program.isAttached ⟨shadowedGlobal, ⟨6⟩, scopes, false⟩ id = true →
      (shadowedGlobal.node id).identifier? ≠ some "x" := by
    intro id attached
    rw [isAttached_eq steady.linked steady.isTop.top,
      ← steady.linked.mem_descendants_iff steady.isTop.allocated] at attached
    revert id
    change ∀ id ∈ shadowedGlobal.descendants ⟨6⟩, (shadowedGlobal.node id).identifier? ≠ some "x"
    decide
  obtain ⟨q, renamed, same⟩ := evaluate?_of_renamed (.made steady.linked steady.isTop made)
    steady.sound.verify steady.wellBound live fresh
  exact ⟨_, binding, q, made, belongs, renamed, (same ⟨4⟩ rfl).2⟩

end Program

end Unravel
