import Unravel.Proofs.Scope.Region
import Unravel.Proofs.Simplify.Instance

/-!
The names that a piece of a tree declares for the scopes around it (`Tree.Exposes`): variables,
which belong to the nearest function, and functions, classes and block-scoped variables, which
belong to the nearest scope. What is declared below a node for a scope beyond it is exposed on all
the way there (`Tree.Linked.exposes_of_declared`), and what a piece exposes is declared for the
scope around its place (`Tree.Exposes.exists_declared`).
-/

namespace Unravel

def Node.encloses {α : Type} (hoisted : Bool) : Node α → Bool
  | .program _ | .function _ => true
  | .block _ | .for_ .. | .switch .. => !hoisted
  | _ => false

/-- Whether a node declares its own name for the scope around it. -/
def Node.isDeclaration {α : Type} : Node α → Bool
  | .function f => f.kind = .declaration
  | .classDef c => c.isDeclaration
  | _ => false

theorem Node.encloses_tag {α : Type} (hoisted : Bool) (n : Node α) :
    n.tag.encloses hoisted = n.encloses hoisted := by
  cases n <;> rfl

theorem Node.isDeclaration_tag {α : Type} (n : Node α) :
    n.tag.isDeclaration = n.isDeclaration := by cases n <;> rfl

namespace Tree

variable {t after : Tree} {id child parent old owner root : NodeId} {hoisted : Bool} {name : String}
  {d : Declaration}

inductive Spells (t : Tree) : NodeId → String → Prop where
  | here {id : NodeId} {name : String} (spelled : (t.node id).identifier? = some name) :
      Spells t id name
  | nested {id child : NodeId} {name : String} (held : child ∈ (t.node id).part .pattern)
      (inner : Spells t child name) :
      Spells t id name

/-- A piece declares a name for a scope around it, the nearest one or, where it is hoisted, the
nearest one that is no block. -/
inductive Exposes (t : Tree) : Bool → NodeId → String → Prop where
  | bound {id declarator target : NodeId} {kind : VarKind} {ids : List Unit} {name : String}
      (isDeclaration : (t.node id).tag = .variableDeclaration kind ids)
      (held : declarator ∈ (t.node id).part .declarators)
      (isTarget : target ∈ (t.node declarator).part .target) (spells : t.Spells target name) :
      Exposes t (kind = .var) id name
  | named {id child : NodeId} {name : String} (isDeclaration : (t.node id).isDeclaration = true)
      (held : child ∈ (t.node id).part .name) (spelled : (t.node child).identifier? = some name) :
      Exposes t false id name
  | deeper {id child : NodeId} {hoisted : Bool} {name : String}
      (held : child ∈ (t.node id).children) (passes : (t.node id).encloses hoisted = false)
      (inner : Exposes t hoisted child name) : Exposes t hoisted id name

/-! ### Names that are the same elsewhere -/

section Mirrored

variable {P : NodeId → Prop} {f : NodeId → NodeId}
  (closed : ∀ {id child}, P id → child ∈ (t.node id).children → P child)
  (mirrors : ∀ {id}, P id → (t.node id).Mirrors f (after.node (f id)))

include closed mirrors

theorem Spells.mirrored (spells : t.Spells id name) (isOwn : P id) : after.Spells (f id) name := by
  induction spells with
  | here spelled => exact .here ((mirrors isOwn).identifier?.trans spelled)
  | nested held _ induction =>
    refine .nested ?_ (induction (closed isOwn (Node.mem_children_of_mem_part held)))
    rw [(mirrors isOwn).part]
    exact List.mem_map_of_mem held

theorem Exposes.mirrored (exposes : t.Exposes hoisted id name) (isOwn : P id) :
    after.Exposes hoisted (f id) name := by
  have held {id child : NodeId} {part : Part} (isOwn : P id)
      (member : child ∈ (t.node id).part part) :
      f child ∈ (after.node (f id)).part part := by
    rw [(mirrors isOwn).part]
    exact List.mem_map_of_mem member
  induction exposes with
  | bound isDeclaration isDeclarator isTarget spells =>
    have ownDeclarator := closed isOwn (Node.mem_children_of_mem_part isDeclarator)
    exact .bound ((mirrors isOwn).tag.trans isDeclaration) (held isOwn isDeclarator)
      (held ownDeclarator isTarget)
      (spells.mirrored closed mirrors
        (closed ownDeclarator (Node.mem_children_of_mem_part isTarget)))
  | named isDeclaration isName spelled =>
    refine .named ?_ (held isOwn isName)
      ((mirrors (closed isOwn (Node.mem_children_of_mem_part isName))).identifier?.trans spelled)
    rw [← Node.isDeclaration_tag, (mirrors isOwn).tag, Node.isDeclaration_tag, isDeclaration]
  | deeper isChild passes _ induction =>
    refine .deeper ?_ ?_ (induction (closed isOwn isChild))
    · rw [(mirrors isOwn).children]
      exact List.mem_map_of_mem isChild
    · rw [← Node.encloses_tag, (mirrors isOwn).tag, Node.encloses_tag, passes]

end Mirrored

/-! ### The scopes around a place -/

def surrounding? (t : Tree) (hoisted : Bool) (id : NodeId) : Option NodeId :=
  if hoisted then t.hoistTarget? (t.scopesAround id) else (t.scopesAround id).head?

theorem Linked.surrounding?_of_parent (linked : t.Linked) (hoisted : Bool)
    (held : t.parent? id = some parent) :
    t.surrounding? hoisted id = t.surrounding? hoisted parent ∨
    t.surrounding? hoisted id = some parent := by
  simp only [surrounding?, linked.scopesAround_of_parent held]
  cases opens : t.opens parent with
  | false =>
    rw [scopesFrom_of_closed opens]
    exact .inl rfl
  | true =>
    rw [scopesFrom_of_opens opens]
    cases hoisted with
    | false => exact .inr rfl
    | true =>
      simp only [if_true, hoistTarget?]
      by_cases isBlock : t.scopeKind? parent = some .block
      · rw [List.dropWhile_cons_of_pos (by simpa using isBlock)]
        cases t.scopesAround parent with
        | nil => exact .inr rfl
        | cons next rest => exact .inl (by rw [List.getLast?_cons_cons])
      · rw [List.dropWhile_cons_of_neg (by simpa using isBlock)]
        exact .inr rfl

theorem Linked.surrounding?_of_isWithin (linked : t.Linked)
    (found : t.surrounding? hoisted id = some owner) (within : t.isWithin id old = true)
    (outside : t.isWithin owner old = false) :
    t.surrounding? hoisted old = some owner := by
  induction id using linked.induction with
  | step id induction =>
    by_cases same : id = old
    · exact same ▸ found
    · obtain ⟨parent, held, above⟩ := linked.exists_parent_of_isWithin within same
      rcases linked.surrounding?_of_parent hoisted held with further | isParent
      · exact induction parent held (further ▸ found) above
      · rw [found, Option.some.injEq] at isParent
        rw [isParent, above] at outside
        cases outside

/-- A declaration inside a scope belongs to it, unless it is hoisted out of a block. -/
theorem Linked.surrounding?_of_opens (linked : t.Linked) (hoisted : Bool)
    (held : t.parent? id = some parent) {kind : ScopeKind}
    (isKind : t.scopeKind? parent = some kind) (stays : hoisted = true → kind ≠ .block) :
    t.surrounding? hoisted id = some parent := by
  simp only [surrounding?, linked.scopesAround_of_parent held,
    scopesFrom_of_opens (by rw [Tree.opens, isKind]; rfl)]
  cases hoisted with
  | false => rfl
  | true =>
    rw [if_pos rfl, hoistTarget?, List.dropWhile_cons_of_neg (by simpa [isKind] using stays rfl)]
    rfl

theorem Linked.encloses_eq_false (linked : t.Linked) (held : t.parent? id = some parent)
    (found : t.surrounding? hoisted id = some owner) (within : t.isWithin parent old = true)
    (inner : parent ≠ old) (outside : t.isWithin owner old = false) :
    (t.node parent).encloses hoisted = false := by
  have notInside {inside : NodeId} (isOwner : t.surrounding? hoisted id = some inside) :
      t.isWithin inside old = false := by
    rw [found, Option.some.injEq] at isOwner
    exact isOwner ▸ outside
  have notParent : t.surrounding? hoisted id ≠ some parent := fun isOwner => by
    rw [notInside isOwner] at within
    cases within
  have leaves {kind : ScopeKind} (isKind : t.scopeKind? parent = some kind) :
      hoisted = true ∧ kind = .block := by
    by_contra stays
    exact notParent (linked.surrounding?_of_opens _ held isKind
      fun isHoisted isBlock => stays ⟨isHoisted, isBlock⟩)
  cases shape : t.node parent with
  | program body => cases (leaves (by rw [scopeKind?, shape])).2
  | function f => cases (leaves (by rw [scopeKind?, shape])).2
  | for_ => rw [Node.encloses, (leaves (by rw [scopeKind?, shape])).1]; rfl
  | switch => rw [Node.encloses, (leaves (by rw [scopeKind?, shape])).1]; rfl
  | block body =>
    have kind :
        t.scopeKind? parent = if (t.parent? parent).any fun outer => (t.node outer).isFunction then
          none
          else some .block := by rw [scopeKind?, shape]
    split at kind
    · rename_i isBody
      -- The body of a function shares the scope of the function, which is part of the piece.
      obtain ⟨function, functionHeld, above⟩ := linked.exists_parent_of_isWithin within inner
      rw [functionHeld, Option.any_some] at isBody
      obtain ⟨f, isFunction⟩ : ∃ f, t.node function = .function f := by
        cases form : t.node function <;> simp_all [Node.isFunction, Node.function?]
      have isOwner := linked.surrounding?_of_opens hoisted functionHeld
        (show t.scopeKind? function = some .function by rw [scopeKind?, isFunction]) (by simp)
      rw [notInside (((linked.surrounding?_of_parent hoisted held).resolve_right notParent).trans
        isOwner)] at above
      cases above
    · rw [Node.encloses, (leaves kind).1]
      rfl
  | _ => rfl

/-! ### What is declared and what is exposed -/

theorem Linked.spells_of_mem_patternNames (linked : t.Linked) (allocated : t.Allocated id)
    (member : child ∈ t.patternNames id) (spelled : (t.node child).identifier? = some name) :
    t.Spells id name := by
  induction id, allocated using linked.induction_children with
  | step id allocated induction =>
    rw [linked.patternNames_eq allocated] at member
    split at member
    · rw [List.mem_singleton.mp member] at spelled
      exact .here spelled
    · obtain ⟨part, held, below⟩ := List.mem_flatMap.mp member
      exact .nested held (induction part (linked.parent?_of_mem_part held) below)

theorem Spells.exists_mem_patternNames (spells : t.Spells id name) (linked : t.Linked)
    (allocated : t.Allocated id) :
    ∃ child ∈ t.patternNames id, (t.node child).identifier? = some name := by
  induction spells with
  | @here id name spelled =>
    refine ⟨id, ?_, spelled⟩
    rw [linked.patternNames_of_identifier allocated spelled]
    exact List.mem_singleton_self _
  | @nested id child name held _ induction =>
    obtain ⟨part, member, spelled⟩ := induction (linked.allocated_of_mem_part held)
    refine ⟨part, ?_, spelled⟩
    rw [linked.patternNames_eq allocated, if_neg]
    · exact List.mem_flatMap.mpr ⟨child, held, member⟩
    · intro isIdentifier
      rw [Node.pattern_eq_nil_of_identifier isIdentifier] at held
      cases held

theorem opens_of_tag {tag : Node Unit} (isTag : (t.node id).tag = tag)
    (plain : tag.encloses false = false) :
    t.opens id = false := by
  rw [← isTag, Node.encloses_tag] at plain
  rw [Tree.opens, scopeKind?]
  cases shape : t.node id <;> simp_all [Node.encloses]

theorem Linked.exposes_of_mem (linked : t.Linked) (member : d ∈ t.declarationsAt id)
    (beyond : d.owner ≠ id) :
    ∃ hoisted, t.Exposes hoisted id d.name ∧ t.surrounding? hoisted id = some d.owner := by
  have notOwn {kind : BindingKind} {names : List NodeId}
      (member : d ∈ t.declaredNames (some id) kind id names) :
      False := beyond (Option.some.inj (mem_declaredNames.mp member).1).symm
  unfold declarationsAt at member
  split at member
  case h_1 kind ids tag =>
    obtain ⟨declarator, held, below⟩ := List.mem_flatMap.mp member
    obtain ⟨isOwner, -, -, named, spelled⟩ := mem_declaredNames.mp below
    obtain ⟨target, isTarget, isName⟩ := List.mem_flatMap.mp named
    refine ⟨decide (kind = .var), .bound tag held isTarget
      (linked.spells_of_mem_patternNames (linked.allocated_of_mem_part isTarget) isName spelled),
      ?_⟩
    rw [scopesFrom_of_closed (opens_of_tag tag rfl)] at isOwner
    rw [← isOwner, surrounding?]
    simp only [decide_eq_true_eq]
  case h_2 f tag =>
    have isFunction : (t.node id).isDeclaration = decide (f.kind = .declaration) := by
      rw [← Node.isDeclaration_tag, tag]
      rfl
    rcases List.mem_append.mp member with member | member
    · split at member
      · rename_i isDeclaration
        obtain ⟨isOwner, -, -, held, spelled⟩ := mem_declaredNames.mp member
        exact ⟨false, .named (isFunction.trans (by simpa using isDeclaration)) held spelled,
          isOwner⟩
      · exact (notOwn member).elim
    · exact (notOwn member).elim
  case h_3 c tag =>
    split at member
    · rename_i isDeclaration
      obtain ⟨isOwner, -, -, held, spelled⟩ := mem_declaredNames.mp member
      rw [scopesFrom_of_closed (opens_of_tag tag rfl)] at isOwner
      refine ⟨false, .named ?_ held spelled, isOwner⟩
      rw [← Node.isDeclaration_tag, tag]
      exact isDeclaration
    · cases member
  case h_4 => cases member

theorem Linked.exposes_of_declared (linked : t.Linked) (member : d ∈ t.declarationsAt id)
    (below : t.isWithin id child = true) (within : t.isWithin child old = true)
    (inner : child ≠ old) (outside : t.isWithin d.owner old = false) :
    ∃ hoisted, t.Exposes hoisted child d.name ∧ t.surrounding? hoisted child = some d.owner := by
  have beyond : d.owner ≠ id := by
    intro same
    rw [same, linked.isWithin_trans below within] at outside
    cases outside
  obtain ⟨hoisted, exposes, found⟩ := linked.exposes_of_mem member beyond
  refine ⟨hoisted, ?_⟩
  clear member beyond
  induction id using linked.induction with
  | step id induction =>
    by_cases same : id = child
    · exact same ▸ ⟨exposes, found⟩
    · obtain ⟨parent, held, above⟩ := linked.exists_parent_of_isWithin below same
      have parentWithin := linked.isWithin_trans above within
      have different : parent ≠ old := by
        rintro rfl
        exact inner (linked.isWithin_antisymm within above)
      have passes := linked.encloses_eq_false held found parentWithin different outside
      refine induction parent held above (.deeper (linked.mem_children.mpr held) passes exposes) ?_
      refine ((linked.surrounding?_of_parent _ held).resolve_right fun isParent => ?_).symm.trans
        found
      rw [found, Option.some.injEq] at isParent
      rw [isParent, parentWithin] at outside
      cases outside

theorem Linked.surrounding?_of_passes (linked : t.Linked) (held : t.parent? id = some parent)
    (passes : (t.node parent).encloses hoisted = false)
    (found : t.surrounding? hoisted parent = some owner) :
    t.surrounding? hoisted id = some owner := by
  rw [← found]
  simp only [surrounding?, linked.scopesAround_of_parent held] at found ⊢
  cases opens : t.opens parent with
  | false => rw [scopesFrom_of_closed opens]
  | true =>
    have isBlock : hoisted = true ∧ t.scopeKind? parent = some .block := by
      rw [Tree.opens, scopeKind?] at opens
      cases shape : t.node parent <;> simp_all [Node.encloses, scopeKind?]
    rw [isBlock.1, if_pos rfl] at found ⊢
    rw [if_pos rfl, scopesFrom_of_opens opens, hoistTarget?, hoistTarget?,
      List.dropWhile_cons_of_pos (by simp [isBlock.2])]
    cases around : t.scopesAround parent with
    | nil =>
      rw [around] at found
      cases found
    | cons next rest => rw [List.getLast?_cons_cons]

theorem Exposes.exists_declared (exposes : t.Exposes hoisted id name) (linked : t.Linked)
    (found : t.surrounding? hoisted id = some owner) :
    ∃ holder, t.isWithin holder id = true ∧
      ∃ d ∈ t.declarationsAt holder, d.owner = owner ∧ d.name = name := by
  induction exposes with
  | @bound id declarator target kind ids name isDeclaration held isTarget spells =>
    obtain ⟨part, member, spelled⟩ := spells.exists_mem_patternNames linked
      (linked.allocated_of_mem_part isTarget)
    refine ⟨id, isWithin_self, ⟨owner, name, .ofVarKind kind, declarator, part⟩, ?_, rfl, rfl⟩
    rw [surrounding?, ← scopesFrom_of_closed (opens_of_tag isDeclaration rfl)] at found
    simp only [decide_eq_true_eq] at found
    simp only [declarationsAt, isDeclaration, found]
    exact List.mem_flatMap.mpr ⟨declarator, held, mem_declaredNames.mpr
      ⟨rfl, rfl, rfl, List.mem_flatMap.mpr ⟨target, isTarget, member⟩, spelled⟩⟩
  | @named id child name isDeclaration held spelled =>
    rw [← Node.isDeclaration_tag] at isDeclaration
    have owned (kind : BindingKind) : ⟨owner, name, kind, id, child⟩ ∈
        t.declaredNames (t.scopesAround id).head? kind id ((t.node id).part .name) :=
      mem_declaredNames.mpr ⟨found, rfl, rfl, held, spelled⟩
    cases tag : (t.node id).tag with
    | function f =>
      rw [tag, Node.isDeclaration, decide_eq_true_eq] at isDeclaration
      refine ⟨id, isWithin_self, ⟨owner, name, .function, id, child⟩, ?_, rfl, rfl⟩
      simp only [declarationsAt, tag, isDeclaration, if_true]
      exact List.mem_append_left _ (owned .function)
    | classDef c =>
      rw [tag, Node.isDeclaration] at isDeclaration
      refine ⟨id, isWithin_self, ⟨owner, name, .class_, id, child⟩, ?_, rfl, rfl⟩
      simp only [declarationsAt, tag, isDeclaration, if_true,
        scopesFrom_of_closed (opens_of_tag tag rfl)]
      exact owned .class_
    | _ =>
      rw [tag] at isDeclaration
      cases isDeclaration
  | deeper isChild passes _ induction =>
    have held := linked.mem_children.mp isChild
    obtain ⟨holder, within, declares⟩ := induction (linked.surrounding?_of_passes held passes found)
    exact ⟨holder, linked.isWithin_trans within (linked.isWithin_of_parent held), declares⟩

end Tree

end Unravel
