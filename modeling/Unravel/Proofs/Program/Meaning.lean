import Unravel.Eval.Expression
import Unravel.Proofs.Scope.Incoming
import Unravel.Simplify.Shape

/-!
What the table of a sound program answers, in terms of the lexicon of its tree: which identifiers
belong to a binding and to which one, and which names mean nothing at a place.
-/

namespace Unravel.Program

variable {p : Program} {id : NodeId} {binding : BindingId} {d : Declaration} {name : String}

/-- The lexicon of the tree of a program. -/
abbrev lexicon (p : Program) : Lexicon := p.tree.lexicon p.root

namespace Sound

variable (sound : p.Sound)

include sound

theorem exists_stands (bound : p.lexicon.binder? d.owner d.name = some d) :
    ∃ binding, p.scopes.find? d.owner d.name = some binding ∧ p.scopes.Stands binding d :=
  sound.describes.found _ _ d bound

theorem bindingOf?_eq :
    p.bindingOf? id = (p.lexicon.meaning? id).bind fun d => p.scopes.find? d.owner d.name :=
  sound.describes.occurrences id

theorem bindingOf?_eq_none_iff : p.bindingOf? id = none ↔ p.lexicon.meaning? id = none := by
  rw [sound.bindingOf?_eq]
  cases means : p.lexicon.meaning? id with
  | none => simp
  | some d =>
    obtain ⟨binding, found, -⟩ := sound.exists_stands (Lexicon.meaning?_some means)
    simp [found]

theorem exists_of_meaning? (means : p.lexicon.meaning? id = some d) :
    ∃ binding, p.bindingOf? id = some binding ∧ p.scopes.Stands binding d := by
  obtain ⟨binding, found, stands⟩ := sound.exists_stands (Lexicon.meaning?_some means)
  exact ⟨binding, by rw [sound.bindingOf?_eq, means, Option.bind_some, found], stands⟩

theorem exists_of_bindingOf? (belongs : p.bindingOf? id = some binding) :
    ∃ d, p.lexicon.meaning? id = some d ∧ p.scopes.Stands binding d := by
  cases means : p.lexicon.meaning? id with
  | none =>
    rw [sound.bindingOf?_eq_none_iff.mpr means] at belongs
    cases belongs
  | some d =>
    obtain ⟨found, isFound, stands⟩ := sound.exists_of_meaning? means
    rw [belongs, Option.some.injEq] at isFound
    exact ⟨d, rfl, isFound ▸ stands⟩

theorem bind_find?_inj {first second : Option Declaration}
    (isBound : ∀ d, first = some d → p.lexicon.binder? d.owner d.name = some d)
    (isBoundToo : ∀ d, second = some d → p.lexicon.binder? d.owner d.name = some d)
    (same : (first.bind fun d => p.scopes.find? d.owner d.name) =
      second.bind fun d => p.scopes.find? d.owner d.name) :
    first = second := by
  have found {d : Declaration} (bound : p.lexicon.binder? d.owner d.name = some d) :=
    sound.exists_stands bound
  cases first with
  | none =>
    cases second with
    | none => rfl
    | some d =>
      obtain ⟨binding, isFound, -⟩ := found (isBoundToo d rfl)
      rw [Option.bind_none, Option.bind_some, isFound] at same
      cases same
  | some d =>
    obtain ⟨binding, isFound, stands⟩ := found (isBound d rfl)
    cases second with
    | none =>
      rw [Option.bind_none, Option.bind_some, isFound] at same
      cases same
    | some other =>
      obtain ⟨_, isFoundToo, standsToo⟩ := found (isBoundToo other rfl)
      rw [Option.bind_some, Option.bind_some, isFound, isFoundToo, Option.some.injEq] at same
      subst same
      have regular := sound.rooted.linked.regular sound.rooted.isTop
      rw [regular.eq_of_identifier (Lexicon.binder?_some (isBound d rfl)).1
        (Lexicon.binder?_some (isBoundToo other rfl)).1
        (stands.identifier.symm.trans standsToo.identifier)]

/-- Identifiers of one binding mean the same declaration. -/
theorem meaning?_eq {other : NodeId} (same : p.bindingOf? id = p.bindingOf? other) :
    p.lexicon.meaning? id = p.lexicon.meaning? other := by
  rw [sound.bindingOf?_eq, sound.bindingOf?_eq] at same
  exact sound.bind_find?_inj (fun _ => Lexicon.meaning?_some) (fun _ => Lexicon.meaning?_some) same

theorem isIdentifier_of_meaning? (means : p.lexicon.meaning? id = some d) :
    (p.node id).isIdentifier = true := by
  have isKnown : ((p.tree.lexicon p.root).knowing fun _ => true).meaning? id = some d := by
    rwa [Lexicon.knowing_eq_self fun _ _ => rfl]
  exact sound.rooted.linked.isIdentifier_of_meaning? sound.rooted.isTop isKnown

theorem spelled_of_bindingOf? (belongs : p.bindingOf? id = some binding)
    (isDeclared : (p.binding binding).identifier = id) :
    (p.node id).identifier? = some (p.binding binding).name := by
  obtain ⟨d, means, stands⟩ := sound.exists_of_bindingOf? belongs
  have declared := (Lexicon.binder?_some (Lexicon.meaning?_some means)).1
  have same : (p.binding binding).identifier = d.identifier := stands.identifier
  have isName : (p.binding binding).name = d.name := stands.name
  rw [← isDeclared, same, isName]
  exact sound.rooted.linked.spelled_of_mem_declared sound.rooted.isTop declared

theorem of_meaning? (means : p.lexicon.meaning? id = some d) :
    (p.node id).identifier? = some d.name ∧ ((p.tree.role id).isUse = true ∨ p.tree.Binds id) := by
  rw [Lexicon.meaning?] at means
  split at means
  · rename_i use isUse
    simp only [lexicon, Tree.lexicon, Option.ite_none_right_eq_some, Tree.useAt?,
      Option.bind_eq_some_iff, Option.some.injEq] at isUse
    obtain ⟨-, name, spelled, isUse, rfl⟩ := isUse
    rw [Lexicon.name_of_look? means]
    exact ⟨spelled, .inl isUse⟩
  · obtain ⟨e, found, bound⟩ := Option.bind_eq_some_iff.mp means
    obtain ⟨declared, rfl⟩ := Lexicon.declarationOf?_some found
    obtain ⟨-, -, sameName⟩ := Lexicon.binder?_some bound
    rw [sameName]
    obtain ⟨declaring, -, isDeclared⟩ :=
      (sound.rooted.linked.mem_declared sound.rooted.isTop).mp declared
    exact ⟨sound.rooted.linked.spelled_of_mem_declared sound.rooted.isTop declared,
      .inr (sound.rooted.linked.binds_of_mem isDeclared)⟩

theorem bindingOf?_of_label {parent : NodeId} (held : id ∈ (p.node parent).part .label) :
    p.bindingOf? id = none := by
  have linked := sound.rooted.linked
  rw [sound.bindingOf?_eq_none_iff, Option.eq_none_iff_forall_ne_some]
  intro d means
  rcases (sound.of_meaning? means).2 with isUse | binds
  · rw [linked.isUse_role_of_label held] at isUse
    cases isUse
  · exact linked.not_binds_of_label held binds

theorem resolve?_eq (attached : p.tree.isWithin id p.root = true) : p.resolve? id name =
    (p.lexicon.look? (p.tree.sight id) name).bind fun d => p.scopes.find? d.owner d.name := by
  have linked := sound.rooted.linked
  have isTop := sound.rooted.isTop
  rw [resolve?, sound.describes.resolve?_eq (linked.regular isTop) linked isTop rfl attached]

/-- A name means nothing at a node if no scope in sight declares it. -/
theorem isUnbound_iff (attached : p.tree.isWithin id p.root = true) :
    p.isUnbound id name = true ↔ p.lexicon.look? (p.tree.sight id) name = none := by
  rw [isUnbound, sound.resolve?_eq attached, Option.isNone_iff_eq_none]
  cases found : p.lexicon.look? (p.tree.sight id) name with
  | none => simp
  | some d =>
    obtain ⟨binding, isFound, -⟩ := sound.exists_stands (Lexicon.look?_some found).2
    simp [isFound]

theorem mutations_eq_nil (bound : p.lexicon.binder? d.owner d.name = some d)
    (found : p.scopes.find? d.owner d.name = some binding)
    (unwritten : ∀ id, ¬p.lexicon.Writes d id) :
    (p.scopes.binding binding).mutations = [] := by
  rw [List.eq_nil_iff_forall_not_mem]
  exact fun id written =>
    unwritten id (((sound.describes.mutations d _ bound found).2 id).mp written)

theorem isConstant_iff (bound : p.lexicon.binder? d.owner d.name = some d)
    (found : p.scopes.find? d.owner d.name = some binding) :
    (p.binding binding).isConstant = true ↔ ∀ id, ¬p.lexicon.Writes d id := by
  have writes := (sound.describes.mutations d binding bound found).2
  rw [Binding.isConstant, List.isEmpty_iff, List.eq_nil_iff_forall_not_mem]
  exact forall_congr' fun id => not_congr (writes id)

/-- What nothing writes has a binding without writes, and all that means it belongs to that. -/
theorem exists_unwritten (unwritten : ∀ id, ¬p.lexicon.Writes d id)
    (means : p.lexicon.meaning? id = some d) :
    ∃ binding, p.scopes.Stands binding d ∧ (p.binding binding).mutations = [] ∧
      ∀ other, p.lexicon.meaning? other = some d → p.bindingOf? other = some binding := by
  have bound := Lexicon.meaning?_some means
  obtain ⟨binding, found, stands⟩ := sound.exists_stands bound
  refine ⟨binding, stands, sound.mutations_eq_nil bound found unwritten, fun other isMeant => ?_⟩
  rw [sound.bindingOf?_eq, isMeant, Option.bind_some, found]

theorem isUnconditional_eq (stands : p.scopes.Stands binding d) :
    p.scopes.isUnconditional p.tree binding =
      (d.owner ∈ p.tree.ancestors d.declaration &&
        !((p.tree.ancestors d.declaration).takeWhile (· ≠ d.owner)).any
          fun node => Scopes.isConditional (p.tree.node node)) := by
  obtain ⟨_, _, -, represents⟩ := sound.describes.scope _ _ stands.scope
  simp only [Scopes.isUnconditional, represents.node, stands.declaration]

/-- Whether a variable that nothing writes is constant is a question about its declaration. -/
theorem isConstantVariable_eq (stands : p.scopes.Stands binding d)
    (unwritten : (p.binding binding).mutations = []) :
    p.isConstantVariable binding =
      (d.kind.isVariable &&
        (d.owner ∈ p.tree.ancestors d.declaration &&
          !((p.tree.ancestors d.declaration).takeWhile (· ≠ d.owner)).any fun node =>
            Scopes.isConditional (p.tree.node node))) := by
  have constant : (p.binding binding).isConstant = true := by
    rw [Binding.isConstant, unwritten]; rfl
  rw [isConstantVariable, constant, show (p.binding binding).kind = d.kind from stands.kind,
    Bool.and_true, sound.isUnconditional_eq stands]

end Sound

theorem declaratorOf?_eq_some_iff {declarator : NodeId} {init : Option NodeId} :
    p.declaratorOf? binding = some (declarator, init) ↔
      (p.binding binding).declaration = declarator ∧
        p.node declarator = .variableDeclarator (p.binding binding).identifier init := by
  simp only [declaratorOf?]
  split
  · rename_i target value shape
    simp only [Option.ite_none_right_eq_some, Option.some.injEq, Prod.mk.injEq]
    constructor
    · rintro ⟨rfl, rfl, rfl⟩
      exact ⟨rfl, shape⟩
    · rintro ⟨rfl, other⟩
      rw [shape, Node.variableDeclarator.injEq] at other
      exact ⟨other.1, rfl, other.2⟩
  · rename_i other
    simp only [reduceCtorEq, false_iff, not_and]
    rintro rfl shape
    exact other _ _ shape

theorem declaratorOf?_of_initialized? {declarator init : NodeId}
    (initialized : p.initialized? binding = some (declarator, init)) :
    p.declaratorOf? binding = some (declarator, some init) := by
  simp only [initialized?, bind, Option.bind_eq_some_iff] at initialized
  obtain ⟨⟨other, found⟩, isDeclared, value, isValue, same⟩ := initialized
  cases same
  rw [isDeclared, show found = some init from isValue]

theorem initialized?_of_stands {init : NodeId} (stands : p.scopes.Stands binding d)
    (shape : p.node d.declaration = .variableDeclarator d.identifier (some init)) :
    p.initialized? binding = some (d.declaration, init) := by
  rw [initialized?, declaratorOf?,
    show (p.binding binding).declaration = d.declaration from stands.declaration,
    show (p.binding binding).identifier = d.identifier from stands.identifier, shape]
  simp

theorem not_writes_of_uses {t : Tree} {root : NodeId} (linked : t.Linked) (isTop : t.IsTop root)
    (reading : ∀ id ∈ t.descendants root, (t.useAt? id).all (fun use => !use.role.writes) = true)
    (single : ∀ d ∈ (t.lexicon root).declared, (t.lexicon root).binder? d.owner d.name = some d)
    (d : Declaration) (id : NodeId) : ¬(t.lexicon root).Writes d id := by
  rintro (⟨use, isUse, writes, -⟩ | ⟨other, declared, -, different, bound⟩)
  · obtain ⟨attached, isUse⟩ := Option.ite_none_right_eq_some.mp isUse
    have reads := reading id ((linked.mem_descendants_iff isTop.allocated).mpr attached)
    rw [isUse, Option.all_some, writes] at reads
    cases reads
  · rw [single other declared, Option.some.injEq] at bound
    exact different bound

theorem not_writes {t : Tree} {root : NodeId} (linked : t.Linked) (isTop : t.IsTop root)
    (reading : ∀ id ∈ t.descendants root, (t.role id).writes = false)
    (single : ∀ d ∈ (t.lexicon root).declared, (t.lexicon root).binder? d.owner d.name = some d)
    (d : Declaration) (id : NodeId) : ¬(t.lexicon root).Writes d id := by
  refine not_writes_of_uses linked isTop (fun id member => ?_) single d id
  rw [Option.all_eq_true]
  intro use isUse
  simp only [Tree.useAt?, Option.bind_eq_some_iff, Option.ite_none_right_eq_some,
    Option.some.injEq] at isUse
  obtain ⟨_, -, -, rfl⟩ := isUse
  rw [reading id member]
  rfl

theorem Steady.isWithin_owner_of_meaning? (steady : p.Steady)
    (means : p.lexicon.meaning? id = some d) :
    p.tree.isWithin id d.owner = true :=
  steady.linked.isWithin_owner_of_meaning? steady.isTop means

/-- A tree whose nodes know their parents makes a program. -/
theorem exists_steady (t : Tree) (root : NodeId) {body : List NodeId} (linked : t.Linked)
    (isTop : t.IsTop root) (wellBound : t.WellBound) (isProgram : t.node root = .program body) :
    ∃ scopes, ofTree t root = .ok ⟨t, root, scopes, false⟩ ∧
      Steady ⟨t, root, scopes, false⟩ := by
  obtain ⟨scopes, made, sound⟩ := exists_ofTree linked isTop isProgram
  exact ⟨scopes, made, sound, wellBound⟩

end Unravel.Program
