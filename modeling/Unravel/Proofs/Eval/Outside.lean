import Unravel.Proofs.Eval.Placed
import Unravel.Proofs.Tree.Copy

/-!
What hangs outside of an expression (`Program.Outside`) when the expression for a value takes its
place: its nodes hold the one instead of the other (`Program.Placing.node_eq`), and its names keep
their meaning unless that was declared in what goes out (`Program.Placing.meaning?_eq`).
-/

namespace Unravel

namespace Node

variable {α : Type} {f : α → α} {n : Node α}

theorem map_eq_self (same : ∀ child ∈ n.children, f child = child) : n.map f = n := by
  have unchanged : n.map id = n := by
    have ofOption (o : Option α) : (o.mapM fun child => (pure child : Id α)).run = o := by
      cases o <;> rfl
    cases n <;> simp [map, traverse, ofOption]
  rw [map_congr_of_children (g := id) same, unchanged]

def isEvaluable : Node α → Bool
  | identifier _ | literal _ | array _ | object _ | unary .. | binary .. | logical .. |
    conditional ..
    | sequence _ | member .. | call .. => true
  | _ => false

theorem isExchangeable_of_isEvaluable (evaluable : n.isEvaluable = true) :
    n.isExchangeable = true := by
  cases n <;> simp_all [isEvaluable, isExchangeable, isSilent, isDeclarator]

end Node

namespace Tree

variable {t : Tree} {old new id parent : NodeId}

theorem node_replace (linked : t.Linked) (held : t.parent? old = some parent) :
    (t.replace old new).node id = (t.node id).map (Node.exchange old new) := by
  have member : old ∈ (t.node parent).children := linked.mem_children.mpr held
  have result :
    t.replace old new =
      ((t.setNode parent ((t.node parent).map (Node.exchange old new))).setParent new
        (some parent)).setParent old none := by
    rw [replace, held]
    simp only [Node.replaceChild?_eq _ _ _ (linked.nodup_children parent), if_pos member]
  rw [result, node_setParent, node_setParent, node_setNode _ (linked.allocated_parent held)]
  split
  · rename_i same
    rw [same]
  · rename_i different
    refine (Node.map_eq_self fun child inside => Node.exchange_of_ne ?_).symm
    rintro rfl
    rw [linked.mem_children, held, Option.some.injEq] at inside
    exact different inside.symm

theorem Linked.sight_of_child (linked : t.Linked) (held : t.parent? id = some parent)
    (free : ¬t.Binds id) (closed : t.opens id = false) (freeParent : ¬t.Binds parent)
    (closedParent : t.opens parent = false) :
    t.sight id = t.sight parent := by
  rw [sight, sight, scopeNode?_eq free closed, scopeNode?_eq freeParent closedParent,
    linked.ancestors_of_parent held, scopeAmong?, closedParent]
  rfl

end Tree

namespace Program

variable {p q after : Program} {target placed id base at_ : NodeId} {v x y : Value}
  {grown : Tree} {limit :
    Nat}
  {name : String}

theorem isEvaluable_of_evaluateWithin (made : p.evaluateWithin limit id = some v) :
    (p.node id).isEvaluable = true := by
  cases limit with
  | zero => cases made
  | succ limit =>
    rw [evaluateWithin_succ, evaluateStep] at made
    cases shape : p.node id <;> simp_all [Node.isEvaluable]

/-! ### Globals before a member -/

/-- The base of a member is looked up from another node with the same result. -/
structure BaseOf (p : Program) (at_ base : NodeId) : Prop where
  attached : p.tree.isWithin at_ p.root = true
  attachedBase : p.tree.isWithin base p.root = true
  isUse : (p.tree.role base).isUse = true
  sight : (p.node base).isIdentifier = true → p.tree.sight base = p.tree.sight at_

namespace Steady

variable (steady : p.Steady)

include steady

theorem not_binds_of_not_isPattern (plain : (p.node id).isPattern = false) : ¬p.tree.Binds id :=
    fun binds => by
  rw [node, steady.wellBound.pattern binds] at plain
  cases plain

theorem baseOf_member {key : NodeId} {computed : Bool} (attached : p.tree.isWithin id p.root = true)
    (shape : p.node id = .member base key computed) : p.BaseOf id base := by
  have linked := steady.linked
  have held : p.tree.parent? base = some id := by
    rw [← linked.mem_children, ← node, shape]
    simp [Node.children]
  have isUse : (p.tree.role base).isUse = true := by
    have distinct := linked.nodup_children id
    rw [← node, shape] at distinct
    have shape : p.tree.node id = .member base key computed := shape
    rw [Tree.role, held]
    cases computed <;> simp_all [Node.children, Role.isUse, Role.reads, @eq_comm _ key]
  refine ⟨attached, linked.isWithin_trans (linked.isWithin_of_parent held) attached, isUse,
    fun isIdentifier => ?_⟩
  refine linked.sight_of_child held (linked.not_binds_of_isUse isUse) (Tree.opens_of_isSilent ?_)
    (steady.not_binds_of_not_isPattern (by rw [shape]; rfl)) (Tree.opens_of_isSilent ?_)
  · cases named : p.tree.node base <;> simp_all [node, Node.isIdentifier, Node.identifier?,
      Node.isSilent]
  · rw [← node, shape]
    rfl

theorem baseOf_callee {callee key : NodeId} {arguments : List NodeId} {computed : Bool}
    (attached : p.tree.isWithin id p.root = true) (shape : p.node id = .call callee arguments)
    (method : p.node callee = .member base key computed) : p.BaseOf id base := by
  have linked := steady.linked
  have held : p.tree.parent? callee = some id := by
    rw [← linked.mem_children, ← node, shape]
    simp [Node.children]
  have below :=
    steady.baseOf_member (linked.isWithin_trans (linked.isWithin_of_parent held) attached) method
  refine ⟨attached, below.attachedBase, below.isUse, fun isIdentifier => ?_⟩
  rw [below.sight isIdentifier]
  exact linked.sight_of_child held (steady.not_binds_of_not_isPattern (by rw [method]; rfl))
    (Tree.opens_of_isSilent (by rw [← node, method]; rfl))
    (steady.not_binds_of_not_isPattern (by rw [shape]; rfl))
    (Tree.opens_of_isSilent (by rw [← node, shape]; rfl))

theorem bindingOf?_base (isBase : p.BaseOf at_ base)
    (spelled : (p.node base).identifier? = some name) :
    p.bindingOf? base = none ↔ p.isUnbound at_ name = true := by
  have isUse : p.lexicon.uses base = some ⟨name, p.tree.role base, p.tree.sight base⟩ := by
    rw [node] at spelled
    simp only [lexicon, Tree.lexicon, Tree.useAt?, isBase.attachedBase, if_true, spelled,
      Option.bind_some, isBase.isUse]
  rw [steady.sound.bindingOf?_eq_none_iff, steady.sound.isUnbound_iff isBase.attached,
    Lexicon.meaning?, isUse,
    ← isBase.sight (by simp [Node.isIdentifier, spelled])]

theorem globalValue?_of_globalBase? (isBase : p.BaseOf at_ base)
    (made : p.evaluateWithin limit base = some v) (isGlobal : p.globalBase? at_ base = some name) :
    (globalValue? name).isSome = true := by
  obtain ⟨spelled, unbound⟩ := Option.filter_eq_some_iff.mp isGlobal
  rw [← steady.bindingOf?_base isBase spelled] at unbound
  cases limit with
  | zero => cases made
  | succ limit =>
    have shape : p.node base = .identifier name := by
      cases shape : p.node base <;> simp_all [Node.identifier?]
    rw [evaluateWithin_succ, evaluateStep, shape] at made
    simp only [unbound] at made
    simp [made]

end Steady

/-! ### What stays outside -/

/-- A node of a program that hangs outside of another one. -/
structure Outside (p : Program) (target id : NodeId) : Prop where
  attached : p.tree.isWithin id p.root = true
  outside : p.tree.isWithin id target = false

theorem Outside.exchange_eq (outside : p.Outside target id) :
    Node.exchange target placed id = id := by
  apply Node.exchange_of_ne
  rintro rfl
  have inside := outside.outside
  rw [Tree.isWithin_self] at inside
  cases inside

theorem find?_filter_of_keep {α : Type} {l : List α} {keep wanted : α → Bool} {a : α}
    (found : l.find? wanted = some a) (kept : keep a = true) :
    (l.filter keep).find? wanted = some a := by
  induction l with
  | nil => cases found
  | cons head rest induction =>
    rw [List.find?_cons] at found
    rw [List.filter_cons]
    split at found
    · cases found
      rename_i isWanted
      rw [if_pos kept, List.find?_cons, isWanted]
    · rename_i notWanted
      split
      · rw [List.find?_cons, notWanted, induction found]
      · exact induction found

namespace Placing

variable (placing : p.Placing target v placed grown after) (outside : p.Outside target id)

include placing

theorem isWithin_grown (attached : p.tree.isWithin id p.root = true) (outer : NodeId) :
    grown.isWithin id outer = p.tree.isWithin id outer :=
  placing.alike.isWithin placing.steady.linked placing.grows.linked attached outer

theorem binder?_of_stays {owner : NodeId} {d : Declaration}
    (found : p.lexicon.binder? owner name = some d)
    (stays : p.tree.isWithin d.identifier target = false) :
    after.lexicon.binder? owner name = some d := by
  have attached :=
    (placing.steady.linked.scopes_owner placing.steady.isTop (Lexicon.binder?_some found).1).1
  rw [Lexicon.binder?, placing.declared_eq]
  exact find?_filter_of_keep found (by rw [placing.isWithin_grown attached, stays]; rfl)

theorem look?_of_stays {places : List NodeId} {d : Declaration}
    (found : p.lexicon.look? places name = some d)
    (stays : p.tree.isWithin d.identifier target = false) :
    after.lexicon.look? places name = some d := by
  induction places with
  | nil => cases found
  | cons owner rest induction =>
    rw [Lexicon.look?, List.findSome?_cons] at found ⊢
    cases first : p.lexicon.binder? owner name with
    | some e =>
      rw [first, Option.some.injEq] at found
      subst found
      rw [placing.binder?_of_stays first stays]
    | none =>
      rw [first] at found
      rw [placing.binder?_eq_none first]
      exact induction found

include outside

theorem stays : grown.Stays target (some placed) id where
  outside := by rw [placing.isWithin_grown outside.attached, outside.outside]
  present := by
    rw [Bool.eq_false_iff]
    intro incoming
    have apart := placing.possible.isWithin_root placing.grows.linked placing.isTop
      placing.notRoot incoming
    rw [placing.isWithin_grown outside.attached, outside.attached] at apart
    cases apart

theorem node_eq : after.node id = (p.node id).map (Node.exchange target placed) := by
  obtain ⟨parent, held⟩ := placing.possible.held
  have allocated := placing.steady.linked.allocated_of_isWithin outside.attached
    placing.steady.isTop.allocated
  rw [node, node, placing.tree, Tree.node_replace placing.grows.linked held,
    placing.grows.node allocated]

theorem identifier?_eq : (after.node id).identifier? = (p.node id).identifier? := by
  rw [placing.node_eq outside, ← Node.identifier?_tag, Node.tag_map, Node.identifier?_tag]

theorem child {child : NodeId} (member : child ∈ (p.node id).children) :
    child = target ∨ p.Outside target child := by
  have linked := placing.steady.linked
  have held := linked.mem_children.mp member
  by_cases same : child = target
  · exact .inl same
  · exact .inr ⟨linked.isWithin_trans (linked.isWithin_of_parent held) outside.attached,
      by rw [linked.isWithin_parent held same, outside.outside]⟩

theorem attached_after : after.tree.isWithin id after.root = true := by
  rw [placing.root, placing.edited.isWithin_root_iff placing.grows.linked placing.possible
    placing.isTop.top placing.attachedGrown placing.notRoot,
    placing.isWithin_grown outside.attached, placing.isWithin_grown outside.attached]
  exact .inl ⟨outside.attached, outside.outside⟩

omit outside in
theorem outside_of_attached (before : p.isAttached id = true)
    (afterwards : after.isAttached id = true) :
    p.Outside target id := by
  rw [isAttached_eq placing.steady.linked placing.steady.isTop.top] at before
  rw [isAttached_eq placing.afterSteady.linked placing.afterSteady.isTop.top, placing.root,
    placing.edited.isWithin_root_iff placing.grows.linked placing.possible placing.isTop.top
      placing.attachedGrown placing.notRoot] at afterwards
  rcases afterwards with ⟨-, outside⟩ | incoming
  · exact ⟨before, by rw [← placing.isWithin_grown before, outside]⟩
  · have apart := placing.possible.isWithin_root placing.grows.linked placing.isTop
      placing.notRoot incoming
    rw [placing.isWithin_grown before, before] at apart
    cases apart

theorem sight_eq : after.tree.sight id = p.tree.sight id := by
  rw [(placing.edited.alike placing.grows.linked placing.possible).sight placing.grows.linked
    placing.afterSteady.linked (placing.stays outside),
    placing.alike.sight placing.steady.linked placing.grows.linked outside.attached]

theorem uses_eq : after.lexicon.uses id = p.lexicon.uses id := by
  simp only [lexicon, Tree.lexicon, outside.attached, placing.attached_after outside, if_true]
  rw [(placing.edited.alike placing.grows.linked placing.possible).useAt? placing.grows.linked
    placing.afterSteady.linked (placing.stays outside),
    placing.alike.useAt? placing.steady.linked placing.grows.linked outside.attached]

theorem isUnbound_after (unbound : p.isUnbound id name = true) :
    after.isUnbound id name = true := by
  rw [placing.steady.sound.isUnbound_iff outside.attached] at unbound
  rw [placing.afterSteady.sound.isUnbound_iff (placing.attached_after outside),
    placing.sight_eq outside]
  exact placing.look?_eq_none unbound

theorem bindingOf?_eq_none (global : p.bindingOf? id = none) : after.bindingOf? id = none := by
  rw [placing.steady.sound.bindingOf?_eq_none_iff, Lexicon.meaning?] at global
  rw [placing.afterSteady.sound.bindingOf?_eq_none_iff, Lexicon.meaning?, placing.uses_eq outside]
  split at global
  · exact placing.look?_eq_none global
  · rw [Option.bind_eq_none_iff] at global ⊢
    intro d found
    obtain ⟨member, same⟩ := Lexicon.declarationOf?_some found
    rw [placing.declared_eq] at member
    have before := (placing.steady.linked.regular placing.steady.isTop).declarationOf?_of_mem
      (List.mem_of_mem_filter member)
    rw [same] at before
    exact placing.binder?_eq_none (global d before)

theorem meaning?_eq {d : Declaration} (means : p.lexicon.meaning? id = some d)
    (stays : p.tree.isWithin d.identifier target = false) : after.lexicon.meaning? id = some d := by
  rw [Lexicon.meaning?] at means
  rw [Lexicon.meaning?, placing.uses_eq outside]
  split at means
  · exact placing.look?_of_stays means stays
  · obtain ⟨e, found, bound⟩ := Option.bind_eq_some_iff.mp means
    have same := (Lexicon.declarationOf?_some found).2
    refine Option.bind_eq_some_iff.mpr ⟨e, ?_, placing.binder?_of_stays bound stays⟩
    rw [Lexicon.declarationOf?, placing.declared_eq]
    apply find?_filter_of_keep found
    rw [same, (placing.stays outside).outside]
    rfl

end Placing

end Program

end Unravel
