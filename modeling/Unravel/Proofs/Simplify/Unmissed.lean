import Unravel.Proofs.Program.Meaning
import Unravel.Proofs.Program.Orderly
import Unravel.Proofs.Scope.Incoming
import Unravel.Proofs.Simplify.Steadily

/-!
Removals that take away nothing that is meant elsewhere (`Program.Unmissed`): of what declares names
for itself only, and of declarations whose names nothing else means.
-/

namespace Unravel

theorem Node.isSilent_of_isDeclarator {α : Type} {n : Node α}
    (isDeclarator : n.isDeclarator = true) :
    n.isSilent = true := by
  cases n <;> simp_all [isSilent, Node.isDeclarator]

theorem Node.isVariableDeclaration_of_mem_part {n : Node NodeId} {declarator : NodeId}
    (held : declarator ∈ n.part .declarators) : n.isVariableDeclaration = true := by
  cases n <;> simp_all [Node.part, isVariableDeclaration]

theorem Node.exists_of_isVariableDeclaration {n : Node NodeId}
    (isDeclaration : n.isVariableDeclaration = true) :
    ∃ kind declarators, n = .variableDeclaration kind declarators := by
  cases n <;> simp_all [isVariableDeclaration]

namespace Program

variable {o p : Program} {id target : NodeId} {d : Declaration}

theorem Sound.exists_of_means (sound : p.Sound) (means : p.lexicon.meaning? id = some d) :
    ∃ binding, p.bindingOf? d.identifier = some binding ∧ p.scopes.Stands binding d ∧
      (id = d.identifier ∨ id ∈ (p.binding binding).references ∨
        id ∈ (p.binding binding).mutations) := by
  have regular := sound.regular
  have bound := Lexicon.meaning?_some means
  have itself : p.lexicon.meaning? d.identifier = some d := by
    rw [regular.meaning?_of_declared (Lexicon.binder?_some bound).1, bound]
  obtain ⟨binding, belongs, stands⟩ := sound.exists_of_meaning? itself
  have found : p.scopes.find? d.owner d.name = some binding := by
    rwa [sound.bindingOf?_eq, itself, Option.bind_some] at belongs
  have describes := sound.describes
  refine ⟨binding, belongs, stands, ?_⟩
  by_cases same : id = d.identifier
  · exact .inl same
  · rcases regular.reads_or_writes means same with reads | writes
    · exact .inr (.inl (((describes.references d binding bound found).2 id).mpr reads))
    · exact .inr (.inr (((describes.mutations d binding bound found).2 id).mpr writes))

theorem Sound.meaning?_of_mem (sound : p.Sound) (means : p.lexicon.meaning? id = some d)
    {binding : BindingId} (belongs : p.bindingOf? id = some binding) {mention : NodeId}
    (member : mention ∈ (p.binding binding).references ∨ mention ∈ (p.binding binding).mutations) :
    p.lexicon.meaning? mention = some d ∧ mention ≠ d.identifier := by
  have regular := sound.regular
  have bound := Lexicon.meaning?_some means
  have declared := (Lexicon.binder?_some bound).1
  have found : p.scopes.find? d.owner d.name = some binding := by
    rwa [sound.bindingOf?_eq, means, Option.bind_some] at belongs
  have notUse {use : Use} (isUse : p.lexicon.uses mention = some use) : mention ≠ d.identifier := by
    rintro rfl
    rw [show p.lexicon.uses d.identifier = none from regular.unused d declared] at isUse
    cases isUse
  rcases member with reads | writes
  · have reads := ((sound.describes.references d binding bound found).2 mention).mp reads
    refine ⟨Lexicon.meaning?_of_reads reads, ?_⟩
    obtain ⟨use, isUse, -⟩ := reads
    exact notUse isUse
  · have writes := ((sound.describes.mutations d binding bound found).2 mention).mp writes
    refine ⟨regular.meaning?_of_writes writes, ?_⟩
    rcases writes with ⟨use, isUse, -⟩ | ⟨e, other, rfl, different, -⟩
    · exact notUse isUse
    · exact fun same => different (regular.eq_of_identifier other declared same)

theorem Sound.exists_meaning_of_reference (sound : p.Sound) {reference : NodeId}
    {binding : BindingId} (belongs : p.bindingOf? id = some binding)
    (member : reference ∈ (p.binding binding).references) :
    ∃ d, p.lexicon.meaning? reference = some d := by
  obtain ⟨d, means, -⟩ := sound.exists_of_bindingOf? belongs
  exact ⟨d, (sound.meaning?_of_mem means belongs (.inl member)).1⟩

theorem Sound.nodup_references (sound : p.Sound) {binding : BindingId}
    (belongs : p.bindingOf? id = some binding) :
    (p.binding binding).references.Nodup := by
  obtain ⟨d, means, -⟩ := sound.exists_of_bindingOf? belongs
  have found : p.scopes.find? d.owner d.name = some binding := by
    rwa [sound.bindingOf?_eq, means, Option.bind_some] at belongs
  exact (sound.describes.references d binding (Lexicon.meaning?_some means) found).1

theorem Sound.eq_of_means (sound : p.Sound) (means : p.lexicon.meaning? id = some d)
    {binding : BindingId} (belongs : p.bindingOf? d.identifier = some binding)
    (unread : (p.binding binding).references = [])
    (unwritten : (p.binding binding).mutations = []) : id = d.identifier := by
  obtain ⟨_, found, -, cases_⟩ := sound.exists_of_means means
  rw [belongs, Option.some.injEq] at found
  subst found
  simpa [unread, unwritten] using cases_

namespace Steady

variable (steady : p.Steady)

include steady

theorem unmissed_of_confines (leaves : p.leaving target = target)
    (confines : p.tree.Confines p.root target) :
    o.Unmissed p target := by
  intro id d _ _ outside means
  rw [leaves] at outside ⊢
  exact confines.not_isWithin steady.linked steady.isTop outside means

theorem unmissed_of_declared
    (own : ∀ d ∈ p.lexicon.declared, p.tree.isWithin d.identifier (p.leaving target) = true →
      p.tree.isWithin d.owner (p.leaving target) = true ∨ ∀ id, o.isAttached id = true →
        p.tree.isWithin id p.root = true → p.lexicon.meaning? id = some d → id = d.identifier) :
    o.Unmissed p target := by
  intro id d isOld attached outside means
  rw [Bool.eq_false_iff]
  intro within
  have declared := (Lexicon.binder?_some (Lexicon.meaning?_some means)).1
  rcases own d declared within with inside | unused
  · have above := steady.linked.isWithin_trans (steady.isWithin_owner_of_meaning? means) inside
    rw [outside] at above
    cases above
  · rw [unused id isOld attached means, within] at outside
    cases outside

theorem unmissed_of_function {f : Function NodeId} (attached : p.tree.isWithin target p.root = true)
    (shape : p.node target = .function f)
    (unused : ∀ id d, o.isAttached id = true → p.tree.isWithin id p.root = true →
      p.lexicon.meaning? id = some d → some d.identifier = f.name → id = d.identifier) :
      o.Unmissed p target := by
  have linked := steady.linked
  have notRoot : target ≠ p.root := steady.ne_root fun body isProgram => by
    rw [isProgram] at shape
    cases shape
  have notDeclarator : (p.node target).isDeclarator = false := by rw [shape]; rfl
  obtain ⟨_, -, leaves⟩ := steady.exists_parent_leaving attached notRoot notDeclarator
  refine steady.unmissed_of_declared fun d declared within => ?_
  rw [leaves] at within ⊢
  obtain ⟨id, -, member⟩ := (linked.mem_declared steady.isTop).mp declared
  cases inside : p.tree.isWithin id target with
  | true =>
    refine (linked.isWithin_owner_or_name shape member inside).imp_right fun named id isOld
      attached means => ?_
    have isName := named.2.2
    rw [show p.tree.node target = .function f from shape] at isName
    exact unused id d isOld attached means (by simpa [Node.part, eq_comm] using isName)
  | false =>
    rcases linked.binds_or_declarator member within inside with binds | held
    · have isPattern := steady.wellBound.pattern binds
      rw [show p.tree.node target = .function f from shape] at isPattern
      cases isPattern
    · have isDeclarator := steady.wellBound.declarator held
      rw [show p.tree.node target = .function f from shape] at isDeclarator
      cases isDeclarator

variable (sorted : p.tree.Sorted o.Owns)

include sorted

theorem isWithin_owner_or_declaration (isOwn : o.Owns target)
    (isDeclarator : (p.node target).isDeclarator = true) (declared : d ∈ p.lexicon.declared)
    (within : p.tree.isWithin d.identifier target = true) :
    p.tree.isWithin d.owner target = true ∨ d.declaration = target := by
  have linked := steady.linked
  obtain ⟨id, -, member⟩ := (linked.mem_declared steady.isTop).mp declared
  cases inside : p.tree.isWithin id target with
  | true =>
    have different : id ≠ target := by
      rintro rfl
      rw [Tree.declarationsAt_of_isSilent (Node.isSilent_of_isDeclarator isDeclarator)] at member
      cases member
    obtain ⟨child, held, below⟩ := linked.exists_child inside different
    have isOperand : (p.tree.node child).isOperand = true := by
      refine sorted.isOperand_child isOwn held ?_
      cases shape : p.tree.node target <;>
        simp_all [Node.isDeclarator, Node.holdsOperands, Node.holdsStatements, Node.isSwitch,
          Node.isVariableDeclaration, Program.node]
    have isSealed := sorted.isSealed linked (sorted.child isOwn held).1
      (Tree.allocated_of_parent? (linked.mem_children.mp held)) isOperand
    exact .inl (linked.isWithin_trans (isSealed.isWithin_owner linked member below)
      (linked.isWithin_of_parent (linked.mem_children.mp held)))
  | false =>
    refine .inr ?_
    rcases linked.binds_or_declarator member within inside with binds | held
    · have isPattern := steady.wellBound.pattern binds
      cases shape : p.tree.node target <;>
        simp_all [Node.isPattern, Node.isDeclarator, Program.node]
    · rcases Tree.declaration_cases member with ⟨-, none⟩ | ⟨otherHeld, named⟩
      · rw [none] at held
        cases held
      · obtain ⟨pattern, patternHeld, named⟩ := List.mem_flatMap.mp named
        have above := linked.parent?_of_mem_part patternHeld
        have below := linked.isWithin_trans
          (linked.isWithin_of_mem_patternNames (Tree.allocated_of_parent? above) named)
          (linked.isWithin_of_parent above)
        exact linked.eq_of_isWithin_children (linked.parent?_of_mem_part otherHeld)
          (linked.parent?_of_mem_part held) below within

theorem unmissed_of_declarator (isOwn : o.Owns target)
    (holder : ∀ parent, p.tree.parent? target = some parent →
      (p.node parent).isVariableDeclaration = true)
    (attached : p.tree.isWithin target p.root = true)
    (isDeclarator : (p.node target).isDeclarator = true)
    (unused : ∀ id d, o.isAttached id = true → p.tree.isWithin id p.root = true →
      p.lexicon.meaning? id = some d → d.declaration = target → id = d.identifier) :
      o.Unmissed p target := by
  have linked := steady.linked
  -- A declarator leaves alone or with the declaration that it is all of.
  have below {d : Declaration} (declared : d ∈ p.lexicon.declared)
      (within : p.tree.isWithin d.identifier (p.leaving target) = true) :
      p.tree.isWithin d.identifier target = true := by
    have notRoot : target ≠ p.root := steady.ne_root fun body shape => by
      rw [shape] at isDeclarator
      cases isDeclarator
    rcases Tree.isWithin_iff.mp attached with same | above
    · exact absurd same notRoot
    obtain ⟨declaration, held, -⟩ := linked.mem_ancestors_iff.mp above
    obtain ⟨kind, declarators, shape⟩ := Node.exists_of_isVariableDeclaration
      (holder declaration held)
    rcases (steady.removable_declarator attached held shape).2 with leaves | ⟨leaves, only⟩
    · rwa [leaves] at within
    · rw [leaves] at within
      have different : d.identifier ≠ declaration := by
        have spelled := linked.spelled_of_mem_declared steady.isTop declared
        rintro same
        rw [same, show p.tree.node declaration = _ from shape] at spelled
        cases spelled
      obtain ⟨child, member, below⟩ := linked.exists_child within different
      rw [show (p.tree.node declaration).children = [target] from only, List.mem_singleton]
        at member
      exact member ▸ below
  refine steady.unmissed_of_declared fun d declared within => ?_
  rcases steady.isWithin_owner_or_declaration sorted isOwn isDeclarator declared
    (below declared within) with inside | same
  · exact .inl (linked.isWithin_trans inside (isWithin_leaving linked target))
  · exact .inr fun id isOld attached means => unused id d isOld attached means same

end Steady

theorem Keeps.isWithin_declaration {known : NodeId → Bool} (keeps : p.Keeps known)
    {binding : BindingId} (belongs : p.bindingOf? id = some binding) :
    p.tree.isWithin (p.binding binding).declaration p.root = true := by
  have linked := keeps.toRooted.linked
  rw [bindingOf?, Scopes.bindingOf?, keeps.describes.occurrences, Option.bind_eq_some_iff]
    at belongs
  obtain ⟨d, means, found⟩ := belongs
  have bound := Lexicon.meaning?_some means
  obtain ⟨_, isFound, stands⟩ := keeps.describes.found _ _ d bound
  rw [found, Option.some.injEq] at isFound
  subst isFound
  have declared : d ∈ p.lexicon.declared := (List.mem_filter.mp (Lexicon.binder?_some bound).1).1
  obtain ⟨holder, attached, member⟩ := (linked.mem_declared keeps.toRooted.isTop).mp declared
  rw [show (p.binding binding).declaration = d.declaration from stands.declaration]
  rcases Tree.declaration_cases member with ⟨same, -⟩ | ⟨held, -⟩
  · exact same ▸ attached
  · exact linked.isWithin_trans (linked.isWithin_of_parent (linked.parent?_of_mem_part held))
      attached

/-! ### In orderly changes -/

/-! Nodes stay what they are. -/

theorem Follows.expressionStatement {q : Program} {expression : NodeId} (leads : p.Follows q)
    (shape : p.node target = .expressionStatement expression) :
    ∃ expression, q.node target = .expressionStatement expression := by
  have tag :=
    leads.tag (Tree.allocated_of_node_ne (by rw [show p.tree.node target = _ from shape]; nofun))
  rw [show p.tree.node target = _ from shape] at tag
  cases found : q.node target <;> simp_all [Node.tag, Program.node]

theorem Follows.isDeclarator {q : Program} (leads : p.Follows q)
    (isDeclarator : (p.node target).isDeclarator = true) :
    (q.node target).isDeclarator = true := by
  have there : p.tree.node target ≠ .empty := by
    intro isEmpty
    rw [show p.node target = .empty from isEmpty] at isDeclarator
    cases isDeclarator
  rw [Program.node, ← Node.isDeclarator_tag, leads.tag (Tree.allocated_of_node_ne there),
    Node.isDeclarator_tag]
  exact isDeclarator

theorem Follows.property {q : Program} {key value : NodeId} {computed : Bool} (leads : p.Follows q)
    (shape : p.node target = .property key value computed) :
    ∃ key value computed, q.node target = .property key value computed := by
  have tag :=
    leads.tag (Tree.allocated_of_node_ne (by rw [show p.tree.node target = _ from shape]; nofun))
  rw [show p.tree.node target = _ from shape] at tag
  cases found : q.node target <;> simp_all [Node.tag, Program.node]

namespace Orderly

variable {aim : Aim} (here : o.Orderly aim p p)

include here

theorem unmissed_of_operand (isPlain : (p.node target).isPlain = true)
    (isOperand : (p.node target).isOperand = true) :
    aim = .names → p.tree.isWithin target p.root = true → o.Unmissed p target := by
  rintro rfl attached
  have steady := (here.steady rfl).1
  have neat := here.neat nofun
  have notRoot : target ≠ p.root := steady.ne_root fun body shape => by
    rw [shape] at isOperand
    cases isOperand
  obtain ⟨_, -, leaves⟩ :=
    steady.exists_parent_leaving attached notRoot (Node.not_isDeclarator_of_isOperand isOperand)
  exact steady.unmissed_of_confines leaves
    (steady.confines neat.tidy.sorted (neat.owns_of_isWithin attached)
      (steady.linked.allocated_of_isWithin attached steady.isTop.allocated) isOperand
      (Free.of_isPlain steady isPlain).notBinding)

theorem unmissed_of_expressionStatement {expression : NodeId}
    (shape : p.node target = .expressionStatement expression) :
    aim = .names → p.tree.isWithin target p.root = true → o.Unmissed p target := by
  rintro rfl attached
  have steady := (here.steady rfl).1
  have linked := steady.linked
  have sorted := (here.neat nofun).tidy.sorted
  have isOwn := (here.neat nofun).owns_of_isWithin attached
  have children : (p.tree.node target).children = [expression] := by
    rw [show p.tree.node target = _ from shape]
    rfl
  have member : expression ∈ (p.tree.node target).children := by simp [children]
  have held := linked.mem_children.mp member
  have free : ¬p.tree.Binds expression := by
    refine linked.not_binds_of_parent held fun part _ => ?_
    rw [show p.tree.node target = _ from shape]
    simp [Node.part]
  have confines := steady.confines sorted (sorted.child isOwn member).1
    (Tree.allocated_of_parent? held)
    (sorted.isOperand_child isOwn member (by rw [show p.tree.node target = _ from shape]; rfl)) free
  refine steady.unmissed_of_confines (steady.removable_statement attached (by rw [shape]; rfl)).2
    fun d declared within => ?_
  have different : d.identifier ≠ target := by
    have spelled := linked.spelled_of_mem_declared steady.isTop declared
    intro same
    rw [same, show p.tree.node target = _ from shape] at spelled
    cases spelled
  obtain ⟨child, isChild, below⟩ := linked.exists_child within different
  rw [children, List.mem_singleton] at isChild
  exact linked.isWithin_trans (confines d declared (isChild ▸ below))
    (linked.isWithin_of_parent held)

theorem unmissed_of_declarator (isDeclarator : (p.node target).isDeclarator = true)
    (unused : aim = .names → ∀ id d, o.isAttached id = true → p.isAttached id = true →
      p.lexicon.meaning? id = some d → d.declaration = target → id = d.identifier) :
    aim = .names → p.tree.isWithin target p.root = true → o.Unmissed p target := by
  rintro rfl attached
  have steady := (here.steady rfl).1
  have neat := here.neat nofun
  have sorted := neat.tidy.sorted
  refine steady.unmissed_of_declarator sorted (neat.owns_of_isWithin attached)
    (fun parent held => ?_) attached isDeclarator
    fun id d isOld isAttached => unused rfl id d isOld (by
      rwa [isAttached_eq steady.linked steady.isTop.top])
  have above := steady.linked.isWithin_root_of_above steady.isTop attached
    (steady.linked.isWithin_of_parent held)
  have admitted :=
    (sorted.child (neat.owns_of_isWithin above) (steady.linked.mem_children.mpr held)).2
  cases shape : p.tree.node target <;>
    simp_all [Node.admits, Node.isOperand, Node.isStatement, Node.isCase,
      Node.isDeclarator, Program.node]

end Orderly

theorem Sound.identifier_of_declaration (sound : p.Sound) {declarator name : NodeId}
    {init : Option NodeId} {binding : BindingId}
    (shape : p.node declarator = .variableDeclarator name init)
    (belongs : p.bindingOf? name = some binding) (declared : d ∈ p.lexicon.declared)
    (same : d.declaration = declarator) : d.identifier = name := by
  have linked := sound.linked
  obtain ⟨holder, -, member⟩ := (linked.mem_declared sound.isTop).mp declared
  obtain ⟨_, means, -⟩ := sound.exists_of_bindingOf? belongs
  have isIdentifier : (p.tree.node name).isIdentifier = true := sound.isIdentifier_of_meaning? means
  have named : d.identifier ∈ p.tree.namesIn declarator .target := by
    rcases Tree.declaration_cases member with ⟨isHolder, none⟩ | ⟨-, named⟩
    · have silent : (p.tree.node holder).isSilent = true := by
        rw [← isHolder, same, show p.tree.node declarator = _ from shape]
        rfl
      rw [Tree.declarationsAt_of_isSilent silent] at member
      cases member
    · exact same ▸ named
  have names : p.tree.namesIn declarator .target = [name] := by
    rw [Tree.namesIn, show p.tree.node declarator = _ from shape]
    simp only [Node.part, List.flatMap_cons, List.flatMap_nil, List.append_nil]
    rw [linked.patternNames_eq (Tree.allocated_of_isIdentifier isIdentifier), if_pos isIdentifier]
  rwa [names, List.mem_singleton] at named

theorem Sound.exists_declaration (sound : p.Sound) {declarator name : NodeId} {init : Option NodeId}
    {binding : BindingId}
    (shape : p.node declarator = .variableDeclarator name init)
    (belongs : p.bindingOf? name = some binding) :
    ∃ declaration, p.tree.parent? declarator = some declaration ∧
      (p.node declaration).isVariableDeclaration = true := by
  have linked := sound.linked
  have target : name ∈ (p.tree.node declarator).part .target := by
    rw [show p.tree.node declarator = _ from shape]
    exact List.mem_singleton_self _
  obtain ⟨d, means, -⟩ := sound.exists_of_bindingOf? belongs
  have isIdentifier : (p.tree.node name).isIdentifier = true := sound.isIdentifier_of_meaning? means
  -- The target is no use, so that it means something only as a declared identifier.
  have noUse : p.lexicon.uses name = none := by
    have isUse := linked.isUse_role_of_binds (.place (by simp) target)
    simp [Tree.lexicon, Tree.useAt?, isUse]
  rw [Lexicon.meaning?, noUse] at means
  obtain ⟨e, declared, -⟩ := Option.bind_eq_some_iff.mp means
  obtain ⟨member, isTarget⟩ := Lexicon.declarationOf?_some declared
  obtain ⟨holder, -, member⟩ := (linked.mem_declared sound.isTop).mp member
  obtain ⟨other, pattern, part, held, named, position⟩ := (linked.introduces_of_mem member).place
  rw [isTarget] at named
  have isPlace : part ∈ [.target, .name, .params] := by
    rcases position with ⟨isName, -⟩ | ⟨rfl, -⟩ <;> simp_all
  have itself : name ∈ p.tree.patternNames name := by
    rw [linked.patternNames_eq (Tree.allocated_of_isIdentifier isIdentifier), if_pos isIdentifier]
    exact List.mem_singleton_self _
  obtain rfl := linked.place_unique isPlace held (by simp) target named itself
  have above := linked.parent?_of_mem_part held
  rw [linked.parent?_of_mem_part target, Option.some.injEq] at above
  subst above
  rcases position with ⟨isName, -⟩ | ⟨-, isDeclarator⟩
  · rw [show p.tree.node declarator = _ from shape] at held
    simp only [List.mem_cons, List.not_mem_nil, or_false] at isName
    rcases isName with rfl | rfl <;> cases held
  · exact ⟨holder, linked.parent?_of_mem_part isDeclarator,
      Node.isVariableDeclaration_of_mem_part isDeclarator⟩

end Program

end Unravel
