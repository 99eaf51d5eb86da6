import Unravel.Proofs.Program.Reworded
import Unravel.Proofs.Simplify.Postponed
import Unravel.Proofs.Simplify.Protected

/-!
What becomes of the aliases of a dispatcher. A run notes them and resolves calls, and then takes
them up one by one, the one found last first (`Decoder.run_eq`). The uses of an alias that are put
in other words then name what the initializer of the alias named before the run, and an alias that
goes away has no use left (`Program.Steady.forwards_uses`). That nothing writes what an alias copies
is not asked for, though (`Rule.exists_forwarded_written`).
-/

namespace Unravel

open SimplifyM

namespace Decoder

variable {p q : Program} {a : Alias} {name : String} {primitive : Primitive} {c : Context}
  {declared init use : NodeId} {d : Declaration} {meaning : Option BindingId}

/--
What a run does before it takes the aliases up: it notes them and resolves calls through one of the
names. -/
def resolve (name : String) (primitive : Primitive) (found : List Alias) : SimplifyM Bool := do
  for a in found do
    SimplifyM.record .dispatcherIdentified a.declarator (a.name ++ " → " ++ a.target)
  SimplifyM.visit (callsOneOf (name :: found.map (·.name))) (callStep primitive)

/-- An alias is taken up if its declarator is still there. -/
def retire (a : Alias) : SimplifyM Bool := SimplifyM.ifAttached a.declarator (aliasStep a)

theorem run_eq (name : String) (primitive : Primitive) : run name primitive = do
    let found := aliases (← SimplifyM.program) name
    let resolved ← resolve name primitive found
    let retired ← SimplifyM.anyChange found.reverse retire
    return resolved || retired := by
  simp only [run, resolve, bind_assoc]
  rfl

/-! ### The aliases that are found -/

/-- An alias of a program: its declarator copies a name, and nothing writes what it declares. -/
structure Alias.Forwards (a : Alias) (p : Program) (init : NodeId) (d : Declaration) : Prop where
  attached : p.isAttached a.declarator = true
  shape : p.node a.declarator = .variableDeclarator d.identifier (some init)
  copies : (p.node init).identifier? = some a.target
  means : p.lexicon.meaning? d.identifier = some d
  name : d.name = a.name
  unwritten : ∀ id, ¬p.lexicon.Writes d id

/-- What a search has found: each alias is made of a copy, its name and the one it copies are known,
and its name is none that an alias found before it has or copies. -/
structure Searched (p : Program) (copies : List Copy) (visited : List String)
    (found : List Alias) : Prop where
  made : ∀ a ∈ found, ∃ copy ∈ copies, copy.alias? p a.target = some a
  known : ∀ a ∈ found, a.name ∈ visited ∧ a.target ∈ visited
  apart : found.Pairwise fun a b => b.name ≠ a.name ∧ b.name ≠ a.target

namespace Searched

variable {copies : List Copy} {visited stack : List String} {found fresh : List Alias}
  {known : List String × List Alias}

theorem start (visited : List String) : Searched p copies visited [] := ⟨by simp, by simp, .nil⟩

/-- An alias is added unless its name is known. -/
theorem add (searched : Searched p copies known.1 (found ++ known.2)) (isKnown : a.target ∈ known.1)
    (made : ∃ copy ∈ copies, copy.alias? p a.target = some a) :
    Searched p copies (addAlias known a).1 (found ++ (addAlias known a).2) ∧
    known.1 ⊆ (addAlias known a).1 := by
  rw [addAlias]
  split
  · exact ⟨searched, List.Subset.refl _⟩
  · rename_i isNew
    refine ⟨⟨?_, ?_, ?_⟩, List.subset_cons_self ..⟩
    · rw [← List.append_assoc, List.forall_mem_append]
      exact ⟨searched.made, by simpa using made⟩
    · rw [← List.append_assoc, List.forall_mem_append]
      refine ⟨fun b member => ?_, by simp [isKnown]⟩
      exact (searched.known b member).imp (List.mem_cons_of_mem _) (List.mem_cons_of_mem _)
    · rw [← List.append_assoc, List.pairwise_append]
      refine ⟨searched.apart, List.pairwise_singleton .., fun b member other isLast => ?_⟩
      rw [List.mem_singleton.mp isLast]
      obtain ⟨hasName, hasTarget⟩ := searched.known b member
      exact ⟨fun same => isNew (same ▸ hasName), fun same => isNew (same ▸ hasTarget)⟩

theorem addAll (searched : Searched p copies known.1 (found ++ known.2))
    (each : ∀ a ∈ fresh, a.target ∈ known.1 ∧ ∃ copy ∈ copies, copy.alias? p a.target = some a) :
    Searched p copies (fresh.foldl addAlias known).1 (found ++ (fresh.foldl addAlias known).2) ∧
      known.1 ⊆ (fresh.foldl addAlias known).1 := by
  induction fresh generalizing known with
  | nil => exact ⟨searched, List.Subset.refl _⟩
  | cons head rest induction =>
    obtain ⟨⟨isKnown, made⟩, each⟩ := List.forall_mem_cons.mp each
    obtain ⟨added, more⟩ := searched.add isKnown made
    obtain ⟨last, further⟩ := induction added
      fun a member => (each a member).imp_left fun isKnown => more isKnown
    exact ⟨last, List.Subset.trans more further⟩

theorem search {limit : Nat} (searched : Searched p copies visited found)
    (isKnown : stack ⊆ visited) :
    ∃ last, Searched p copies last (Decoder.search p copies limit stack visited found) := by
  induction limit generalizing stack visited found with
  | zero => exact ⟨visited, searched⟩
  | succ limit induction =>
    cases stack with
    | nil => exact ⟨visited, searched⟩
    | cons top stack =>
      obtain ⟨topKnown, stackKnown⟩ := List.cons_subset.mp isKnown
      have each : ∀ a ∈ copies.filterMap (Copy.alias? p top), a.target ∈ visited ∧
          ∃ copy ∈ copies, copy.alias? p a.target = some a := by
        intro a isAlias
        obtain ⟨copy, isCopy, made⟩ := List.mem_filterMap.mp isAlias
        have isTop : a.target = top := by
          simp only [Copy.alias?, Option.bind_eq_bind, Option.bind_eq_some_iff,
            Option.ite_none_right_eq_some, Option.some.injEq] at made
          obtain ⟨_, -, -, rfl⟩ := made
          rfl
        rw [isTop]
        exact ⟨topKnown, copy, isCopy, made⟩
      have start : Searched p copies visited (found ++ []) := by rwa [List.append_nil]
      obtain ⟨added, more⟩ :=
        addAll (show Searched p copies (visited, []).1 (found ++ (visited, []).2) from start) each
      refine induction added fun n member => ?_
      rcases List.mem_append.mp member with isFresh | isOlder
      · rw [List.mem_reverse, List.mem_map] at isFresh
        obtain ⟨a, isFresh, rfl⟩ := isFresh
        exact (added.known a (List.mem_append_right _ isFresh)).1
      · exact more (stackKnown isOlder)

end Searched

theorem exists_searched (p : Program) (name : String) :
    ∃ visited, Searched p (p.nodes.filterMap (copy? p)) visited (aliases p name) :=
  (Searched.start [name]).search (List.Subset.refl _)

theorem pairwise_aliases (p : Program) (name : String) :
    (aliases p name).Pairwise fun a b => b.name ≠ a.name ∧ b.name ≠ a.target := by
  obtain ⟨_, searched⟩ := exists_searched p name
  exact searched.apart

theorem exists_forwards (steady : p.Steady) (member : a ∈ aliases p name) :
    ∃ init d, a.Forwards p init d := by
  have sound := steady.sound
  obtain ⟨_, searched⟩ := exists_searched p name
  obtain ⟨copy, isCopy, made⟩ := searched.made a member
  obtain ⟨declarator, isNode, copied⟩ := List.mem_filterMap.mp isCopy
  unfold copy? at copied
  split at copied
  · rename_i declared init shape
    obtain ⟨_, spelled, rfl⟩ := Option.map_eq_some_iff.mp copied
    simp only [Copy.alias?, Option.bind_eq_bind, Option.bind_eq_some_iff,
      Option.ite_none_right_eq_some, Option.some.injEq, Bool.and_eq_true, decide_eq_true_eq] at made
    obtain ⟨binding, belongs, ⟨⟨sameName, isDeclared⟩, isConstant⟩, same⟩ := made
    obtain ⟨d, means, stands⟩ := sound.exists_of_bindingOf? belongs
    have identifier : d.identifier = declared := stands.identifier.symm.trans isDeclared
    subst identifier
    rw [← same]
    refine ⟨init, d, sound.rooted.isAttached_of_mem_nodes isNode, shape, ?_, means,
      stands.name.symm, ?_⟩
    · rw [spelled, sameName]
    · have bound := Lexicon.meaning?_some means
      rw [sound.bindingOf?_eq, means, Option.bind_some] at belongs
      refine (sound.isConstant_iff bound belongs).mp ?_
      simp only [Program.isConstantVariable, Bool.and_eq_true] at isConstant
      exact isConstant.1.2
  · cases copied

/-! ### The uses of an alias -/

theorem exists_redirected (a : Alias) (meaning : Option BindingId) (c : Context)
    (uses : List NodeId) (steady : q.Steady) (distinct : uses.Nodup)
    (each : ∀ use ∈ uses, q.isAttached use = true ∧
      (q.node use).isIdentifier = true ∧ (q.tree.role use).isUse = true) :
    ∃ changed r now, anyChange uses (redirect a meaning) ⟨q, c⟩ = .ok changed ⟨r, c⟩ ∧ r.Steady ∧
      q.Recast r (fun use => use ∈ uses ∧ q.resolve? use a.target = meaning)
        (.identifier a.target) now := by
  induction uses generalizing q with
  | nil => exact ⟨false, q, _, rfl, steady, .none q fun use isUse => List.not_mem_nil isUse.1⟩
  | cons head rest induction =>
    obtain ⟨notRest, distinct⟩ := List.nodup_cons.mp distinct
    obtain ⟨⟨attached, isIdentifier, isUse⟩, each⟩ := List.forall_mem_cons.mp each
    have different {use : NodeId} (member : use ∈ rest) : use ≠ head :=
      fun same => notRest (same ▸ member)
    rw [anyChange_cons]
    by_cases means : q.resolve? head a.target = meaning
    · obtain ⟨piece, grown, after, rewording, isLeaf, ran⟩ := steady.exists_put
        (show Node.children (.identifier a.target : Node NodeId) = [] from rfl) rfl attached
        isIdentifier isUse c
      have first := rewording.reworded
      have kept {use : NodeId} (member : use ∈ rest) : Node.exchange head piece use = use :=
        Node.exchange_of_ne (different member)
      obtain ⟨changed, r, next, ranRest, steadyLast, further⟩ :=
        induction rewording.afterSteady distinct fun use member => by
          obtain ⟨attached, isIdentifier, isUse⟩ := each use member
          refine ⟨first.attached_of_kept attached (kept member), ?_, ?_⟩
          · rwa [Node.isIdentifier, first.identifier?_kept attached (kept member)]
          · rwa [first.role_kept attached (kept member)]
      have stepped : redirect a meaning head ⟨q, c⟩ = .ok true ⟨after, c⟩ := by
        rw [redirect, program_bind, if_pos means]
        exact bind_of_ok _ ran
      refine ⟨true || changed, r, _, ?_, steadyLast,
        (Program.Recast.step rewording isLeaf further fun use isRest =>
          ⟨(each use isRest.1).1, different isRest.1⟩).congr fun {use} attached => ?_⟩
      · exact (bind_of_ok _ stepped).trans (bind_of_ok _ ranRest)
      · by_cases isHead : use = head
        · simp [isHead, means]
        · have same := first.resolve?_eq steady.sound rewording.afterSteady.sound attached a.target
          rw [Node.exchange_of_ne isHead] at same
          rw [List.mem_cons, or_iff_right isHead, or_iff_right isHead, same]
    · obtain ⟨changed, r, next, ranRest, steadyLast, further⟩ := induction steady distinct each
      have stepped : redirect a meaning head ⟨q, c⟩ = .ok false ⟨q, c⟩ := by
        rw [redirect, program_bind, if_neg means]
        rfl
      refine ⟨false || changed, r, next, (bind_of_ok _ stepped).trans (bind_of_ok _ ranRest),
        steadyLast, further.congr fun {use} _ => ?_⟩
      rw [List.mem_cons]
      refine and_congr_left fun same => or_iff_right ?_
      rintro rfl
      exact means same

/--
The uses of an alias, declared by one declaration, from which the name that it copies means a
certain one. -/
def Follows (q : Program) (a : Alias) (d : Declaration) (target : Option Declaration)
    (use : NodeId) : Prop :=
  q.lexicon.Reads d use ∧ q.lexicon.look? (q.tree.sight use) a.target = target

theorem exists_of_removeStep (a : Alias) (c : Context) (steady : q.Steady)
    (attached : q.isAttached a.declarator = true)
    (shape : q.node a.declarator = .variableDeclarator d.identifier (some init))
    (means : q.lexicon.meaning? d.identifier = some d) :
    ∃ removed left, removeStep a d.identifier ⟨q, c⟩ = .ok removed left ∧ (left.program = q ∨
      q.remove a.declarator = .ok left.program ∧ ∀ id, q.lexicon.meaning? id = some d →
        id = d.identifier) := by
  obtain ⟨binding, belongs, -⟩ := steady.sound.exists_of_meaning? means
  rw [removeStep, program_bind]
  simp only [belongs, Option.any_some]
  split
  · rename_i spent
    simp only [Binding.isReferenced, Bool.not_not, Binding.isConstant, Bool.and_eq_true,
      List.isEmpty_iff] at spent
    have isIdentifier := steady.sound.isIdentifier_of_meaning? means
    have declares : Unused.declaredName? q a.declarator = some d.identifier := by
      simp [Unused.declaredName?, shape, isIdentifier]
    obtain ⟨after, done, -⟩ :=
      (Unused.fades_of_declaredName? steady attached declares belongs).removable.exists_taken steady
    rw [bind_of_ok _ (remove_of_ok done)]
    exact ⟨true, _, rfl,
      .inr ⟨done, fun id isMeant => steady.sound.eq_of_means isMeant belongs spent.1 spent.2⟩⟩
  · exact ⟨false, _, rfl, .inl rfl⟩

/-- An alias is taken up: those uses come to spell the name that is copied and mean what the
initializer means. The declarator stays, or it is removed and nothing else means what it declares.
-/
theorem exists_forwarded (a : Alias) (c : Context) (steady : q.Steady)
    (attached : q.isAttached a.declarator = true)
    (shape : q.node a.declarator = .variableDeclarator d.identifier (some init))
    (means : q.lexicon.meaning? d.identifier = some d) :
    ∃ answer left r now, aliasStep a ⟨q, c⟩ = .ok answer left ∧ r.Steady ∧
      q.Recast r (Follows q a d (q.lexicon.meaning? init)) (.identifier a.target) now ∧
      (∀ use, Follows q a d (q.lexicon.meaning? init) use →
        r.lexicon.meaning? (now use) = q.lexicon.meaning? init) ∧
      (left.program = r ∨ r.remove a.declarator = .ok left.program ∧
        ∀ id, r.lexicon.meaning? id = some d → id = d.identifier) := by
  have sound := steady.sound
  have rooted := sound.rooted
  obtain ⟨binding, belongs, -⟩ := sound.exists_of_meaning? means
  have found : q.scopes.find? d.owner d.name = some binding := by
    rwa [sound.bindingOf?_eq, means, Option.bind_some] at belongs
  obtain ⟨distinct, reads⟩ := sound.describes.references d binding
    (Lexicon.meaning?_some means) found
  have attachedUse {use : NodeId} (isRead : q.lexicon.Reads d use) : q.isAttached use = true := by
    rw [Program.isAttached_eq rooted.linked rooted.isTop.top]
    exact (Program.isWithin_root_of_meaning? rooted (Lexicon.meaning?_of_reads isRead)).1
  obtain ⟨redirected, r, now, ran, after, recast⟩ := exists_redirected a (q.bindingOf? init) c
    (q.binding binding).references steady distinct fun use member =>
      have ⟨isIdentifier, isUse⟩ := sound.isUse_of_reference belongs member
      ⟨attachedUse ((reads use).mp member), isIdentifier, isUse⟩
  -- A use is put in other words if the name means for it what the initializer means.
  have recast : q.Recast r (Follows q a d (q.lexicon.meaning? init))
      (.identifier a.target) now := by
    refine recast.congr fun {use} attached => ?_
    rw [Program.isAttached_eq rooted.linked rooted.isTop.top] at attached
    rw [Follows, ← reads use]
    refine and_congr_right fun _ => ?_
    rw [sound.resolve?_eq attached, sound.bindingOf?_eq]
    refine ⟨fun same => by rw [same], fun same => ?_⟩
    exact sound.bind_find?_inj (fun _ isFound => (Lexicon.look?_some isFound).2)
      (fun _ => Lexicon.meaning?_some) same
  have keptDeclarator : now a.declarator = a.declarator := by
    by_contra moved
    have isIdentifier := (recast.moved attached moved).1
    rw [shape] at isIdentifier
    cases isIdentifier
  have attachedName : q.isAttached d.identifier = true := by
    rw [Program.isAttached_eq rooted.linked rooted.isTop.top]
    exact (Program.isWithin_root_of_meaning? rooted means).1
  have binds : q.tree.Binds d.identifier := by
    obtain ⟨holder, -, declares⟩ :=
      (rooted.linked.mem_declared rooted.isTop).mp
        (Lexicon.binder?_some (Lexicon.meaning?_some means)).1
    exact rooted.linked.binds_of_mem declares
  have keptName := recast.kept_of_binds rooted attachedName binds
  have shapeAfter : r.node a.declarator = .variableDeclarator d.identifier (some (now init)) := by
    rw [recast.node attached keptDeclarator, shape]
    exact congrArg (fun name => Node.variableDeclarator name (some (now init))) keptName
  have meansAfter : r.lexicon.meaning? d.identifier = some d := by
    rw [recast.meaning?_kept rooted after.sound.rooted attachedName keptName, means]
  obtain ⟨removed, left, removes, ends⟩ := exists_of_removeStep a c after
    (recast.attached_of_kept attached keptDeclarator) shapeAfter meansAfter
  refine ⟨redirected || removed, left, r, now, ?_, after, recast, fun use follows => ?_, ends⟩
  · rw [aliasStep, program_bind]
    simp only [shape, belongs]
    rw [bind_of_ok _ ran, bind_of_ok _ removes]
    rfl
  · have attached := attachedUse follows.1
    have spelled : (r.node (now use)).identifier? = some a.target := by
      rw [recast.spelled attached follows]; rfl
    rw [recast.meaning?_moved after.sound.rooted attached ((recast.moved_iff attached).mpr follows)
      spelled, follows.2]

/-! ### The turn of an alias -/

/-- What a run may have taken out of a program when it has taken some aliases up: calls, and the
declarators and names of those aliases. -/
def Spent (p : Program) (names : List String) (before : List Alias) (e : NodeId) : Prop :=
  callsOneOf names p e = true ∨
  ∃ b ∈ before, e = b.declarator ∨ (p.node e).identifier? = some b.name

variable {may : NodeId → Prop} {before behind found : List Alias} {w v : Workspace} {changed : Bool}

theorem exists_init_of_remnant {target : NodeId} {init : Option NodeId} (remnant : p.Remnant may q)
    (shape : p.node use = .variableDeclarator target init) (attached : q.isAttached use = true) :
    ∃ init', q.node use = .variableDeclarator target init' := by
  have isOld : p.tree.Allocated use := Tree.allocated_of_node_ne fun isEmpty => by
    rw [Program.node, isEmpty] at shape
    cases shape
  have tag := remnant.tag isOld
  have isTarget : target ∈ (q.node use).part .target :=
    remnant.names (by simp) (remnant.parent isOld attached).1 attached (by simp [shape, Node.part])
  cases after : q.node use with
  | variableDeclarator other init' =>
    rw [after] at isTarget
    exact ⟨init', by rw [List.mem_singleton.mp isTarget]⟩
  | _ => simp [after, shape, Node.tag] at tag

theorem spelled_of_reference (forwards : a.Forwards p init d) (steady : p.Steady)
    (remnant : p.Remnant may q) (attached : q.isAttached a.declarator = true) {declared : NodeId}
    {init' : Option NodeId} {binding : BindingId}
    (shape : q.node a.declarator = .variableDeclarator declared init')
    (belongs : q.bindingOf? declared = some binding) (member : use ∈ (q.binding binding).references)
    (isOld : p.tree.Allocated use) :
    (p.node use).identifier? = some a.name := by
  have same {id : NodeId} (isOld : p.tree.Allocated id) :
      (q.node id).identifier? = (p.node id).identifier? := by
    rw [← Node.identifier?_tag, remnant.tag isOld, Node.identifier?_tag]
  obtain ⟨_, shapeAfter⟩ := exists_init_of_remnant remnant forwards.shape attached
  rw [shape, Node.variableDeclarator.injEq] at shapeAfter
  obtain ⟨rfl, -⟩ := shapeAfter
  obtain ⟨e, means, -⟩ := remnant.steady.sound.exists_of_bindingOf? belongs
  have isUse := (remnant.steady.sound.meaning?_of_mem means belongs (.inl member)).1
  have spelled := (remnant.steady.sound.of_meaning? means).1
  rw [same (steady.linked.allocated_of_isWithin
    (Program.isWithin_root_of_meaning? steady.sound.rooted forwards.means).1
    steady.isTop.allocated), (steady.sound.of_meaning? forwards.means).1, forwards.name,
      Option.some.injEq] at spelled
  rw [← same isOld, (remnant.steady.sound.of_meaning? isUse).1, spelled]

theorem remaining_resolve (name : String) (primitive : Primitive) (found : List Alias)
    (calls : ∀ e, callsOneOf (name :: found.map (·.name)) w.program e = true → may e)
    (here : Remains p may c w w) :
    Remaining p may c w (resolve name primitive found) :=
  .bind route_remains (.forIn_rest route_remains (fun _ v => v.program = w.program) here rfl
    fun _ _ _ _ remains same => .bind route_remains (remains.stay.logs _) fun _ _ remains further =>
      .pure remains.stay ⟨rfl, further.trans same⟩) fun _ _ remains same =>
        remaining_calls (fun e isCall => calls e (same ▸ isCall)) remains.stay

theorem orderly_resolve {o : Program} {aim : Program.Aim} (name : String) (primitive : Primitive)
    (found : List Alias) (here : o.Orderly aim p p) :
    Along (o.Orderly aim) p (resolve name primitive found) any := by
  have course := Along.course o aim
  exact .bind course (.forIn course (fun _ => True) here trivial
      fun a _ q leads _ => .yields course (.record _ _ _ leads.stay) fun _ _ _ _ => trivial)
    fun _ q start _ => orderly_calls _ primitive start.stay

theorem left_of_retired (steady : p.Steady)
    (sorted : p.tree.Sorted fun id => p.isAttached id = true)
    (areAliases : ∀ b ∈ before, b ∈ aliases p name)
    (resolved : resolve name primitive (aliases p name) ⟨p, c⟩ = .ok changed v) {retired : Bool}
    (ran : anyChange before retire v = .ok retired w) :
    p.Remnant (Spent p (name :: (aliases p name).map (·.name)) before) w.program ∧
    p.Spares p w.program := by
  constructor
  · have start : Remains p (Spent p (name :: (aliases p name).map (·.name)) before) c ⟨p, c⟩
        ⟨p, c⟩ := .start steady
    have calls :=
      ((remaining_resolve name primitive (aliases p name) (fun e => .inl) start).of_ok resolved).1
    refine ((Through.anyChange route_remains calls.stay fun b member u remains => ?_).of_ok
      ran).1.remnant
    have here := remains.stay
    refine .program ?_
    split
    · rename_i attached
      obtain ⟨init, d, forwards⟩ := exists_forwards steady (areAliases b member)
      refine remaining_aliasStep (.inr ⟨b, member, .inl rfl⟩) ?_ here
      intro declared init' binding shape belongs reference isUse isOld
      have spelled := spelled_of_reference forwards steady here.remnant attached shape
        belongs isUse isOld
      exact .inr ⟨b, member, .inr spelled⟩
    · exact .pure here trivial
  · have neat : p.Neat p := .start steady.sound sorted
    have course := Along.course p .names
    have along : Along (p.Orderly .names) p (do
        let _ ← resolve name primitive (aliases p name)
        anyChange before retire) any := by
      refine .bindAny course (orderly_resolve name primitive _ (.names neat steady))
        fun _ q leads =>
          .anyChange course leads.stay fun b _ r leads => .ifAttached leads.stay fun _ => ?_
      exact orderly_aliasStep b leads.stay
    have ends := along c
    rw [bind_of_ok _ resolved, ran] at ends
    exact ends.1.spares rfl

theorem shape_of_remnant {names : List String} (forwards : a.Forwards p init d) (steady : p.Steady)
    (remnant : p.Remnant (Spent p names before) q) (attached : q.isAttached a.declarator = true)
    (others : ∀ b ∈ before, (p.node b.declarator).isDeclarator = true ∧ b.name ≠ a.target) :
    q.node a.declarator = .variableDeclarator d.identifier (some init) ∧
    q.isAttached init = true := by
  have linked := steady.linked
  have rooted := steady.sound.rooted
  have isChild : init ∈ (p.tree.node a.declarator).children := by
    rw [show p.tree.node a.declarator = _ from forwards.shape]
    simp [Node.children]
  have held := linked.mem_children.mp isChild
  have attachedInit : p.isAttached init = true := by
    rw [Program.isAttached_eq linked steady.isTop.top]
    have above := forwards.attached
    rw [Program.isAttached_eq linked steady.isTop.top] at above
    exact linked.isWithin_trans (linked.isWithin_of_parent held) above
  have isOld := rooted.allocated_of_isAttached attachedInit
  have isIdentifier : (p.node init).isIdentifier = true := Option.isSome_of_eq_some forwards.copies
  have stays : q.isAttached init = true := by
    by_contra isGone
    rw [Bool.not_eq_true] at isGone
    rcases remnant.gone attachedInit isGone with isDeclaration | ⟨outer, spent, within, gone⟩
    · cases shape : p.node init <;> simp_all [Node.isIdentifier, Node.identifier?,
        Node.isVariableDeclaration]
    · by_cases same : init = outer
      · -- The initializer is no call, no declarator and none of the names that have been taken up.
        subst same
        rcases spent with isCall | ⟨b, member, isDeclarator | isName⟩
        · obtain ⟨_, _, shape⟩ := exists_of_callsOneOf isCall
          rw [shape] at isIdentifier
          cases isIdentifier
        · rw [isDeclarator] at isIdentifier
          have isDeclarator := (others b member).1
          cases shape : p.node b.declarator <;> simp_all [Node.isIdentifier, Node.identifier?,
            Node.isDeclarator]
        · rw [forwards.copies, Option.some.injEq] at isName
          exact (others b member).2 isName.symm
      · rw [linked.isWithin_parent held same] at within
        rw [← remnant.isWithin_eq (rooted.allocated_of_isAttached forwards.attached) attached]
          at within
        rw [remnant.rooted.isAttached_of_isWithin attached within] at gone
        cases gone
  obtain ⟨init', shape⟩ := exists_init_of_remnant remnant forwards.shape attached
  have heldAfter := (remnant.parent isOld stays).2.trans held
  have isChildAfter : init ∈ (q.tree.node a.declarator).children :=
    remnant.steady.linked.mem_children.mpr heldAfter
  refine ⟨?_, stays⟩
  have distinct := linked.nodup_children a.declarator
  rw [show p.tree.node a.declarator = _ from forwards.shape, Node.children, Option.toList_some,
    List.nodup_cons, List.mem_singleton] at distinct
  rw [show q.tree.node a.declarator = _ from shape, Node.children, List.mem_cons,
    or_iff_right (Ne.symm distinct.1), Option.mem_toList] at isChildAfter
  rw [shape, isChildAfter]

end Decoder

/-- When an alias is taken up in the course of a run, its uses come to spell the name that it copies
where that name means what the initializer of the alias meant before the run, and they mean it then.
Its declarator stays, or it is removed and nothing else means what it declares. -/
theorem Program.Steady.forwards_uses {p : Program} {name : String}
    {primitive : Primitive} {c : Context} {a : Decoder.Alias} {before behind : List Decoder.Alias}
    {v w : Workspace} {resolved retired : Bool} (steady : p.Steady)
    (sorted : p.tree.Sorted fun id => p.isAttached id = true)
    (order : (Decoder.aliases p name).reverse = before ++ a :: behind)
    (resolves : Decoder.resolve name primitive (Decoder.aliases p name) ⟨p, c⟩ = .ok resolved v)
    (retires : anyChange before Decoder.retire v = .ok retired w)
    (attached : w.program.isAttached a.declarator = true) :
    ∃ init d, a.Forwards p init d ∧ ∃ answer left r now, Decoder.retire a w = .ok answer left ∧
      w.program.Recast r (Decoder.Follows w.program a d (p.lexicon.meaning? init))
        (.identifier a.target) now ∧
      (∀ use, Decoder.Follows w.program a d (p.lexicon.meaning? init) use →
        r.lexicon.meaning? (now use) = p.lexicon.meaning? init) ∧
      (left.program = r ∨ r.remove a.declarator = .ok left.program ∧
        ∀ id, r.lexicon.meaning? id = some d → id = d.identifier) := by
  have rooted := steady.sound.rooted
  have areAliases : ∀ b ∈ before ++ a :: behind, b ∈ Decoder.aliases p name := fun b member =>
    List.mem_reverse.mp (order ▸ member)
  obtain ⟨init, d, forwards⟩ := Decoder.exists_forwards steady (areAliases a (by simp))
  have apart : (before ++ a :: behind).Pairwise fun b a => b.name ≠ a.name ∧ b.name ≠ a.target := by
    rw [← order, List.pairwise_reverse]
    exact Decoder.pairwise_aliases p name
  obtain ⟨remnant, spares⟩ := Decoder.left_of_retired steady sorted
    (fun b member => areAliases b (List.mem_append_left _ member)) resolves retires
  obtain ⟨shape, attachedInit⟩ := Decoder.shape_of_remnant forwards steady remnant attached
    fun b member => by
    obtain ⟨_, _, other⟩ := Decoder.exists_forwards steady
      (areAliases b (List.mem_append_left _ member))
    refine ⟨by rw [other.shape]; rfl, ?_⟩
    exact ((List.pairwise_append.mp apart).2.2 b member a (List.mem_cons_self ..)).2
  -- What is left means what it meant before the run.
  have still {id : NodeId} (isLeft : w.program.isAttached id = true)
      (was : p.isAttached id = true) :
      w.program.lexicon.meaning? id = p.lexicon.meaning? id := (spares id was isLeft).2
  have attachedChild {q : Program} (rooted : q.Rooted) (attached : q.isAttached a.declarator = true)
      (shape : q.node a.declarator = .variableDeclarator d.identifier (some init)) {child : NodeId}
      (isChild : child ∈ [d.identifier, init]) : q.isAttached child = true := by
    rw [Program.isAttached_eq rooted.linked rooted.isTop.top] at attached ⊢
    refine rooted.linked.isWithin_trans
      (rooted.linked.isWithin_of_parent (rooted.linked.mem_children.mp ?_)) attached
    rw [show q.tree.node a.declarator = _ from shape]
    exact isChild
  have meansName := (still (attachedChild remnant.rooted attached shape (by simp))
    (attachedChild rooted forwards.attached forwards.shape (by simp))).trans forwards.means
  have meansInit :=
    still attachedInit (attachedChild rooted forwards.attached forwards.shape (by simp))
  obtain ⟨answer, left, r, now, ran, after, recast, means, ends⟩ :=
    Decoder.exists_forwarded a w.context remnant.steady attached shape meansName
  rw [meansInit] at recast means
  refine ⟨init, d, forwards, answer, left, r, now, ?_, recast, means, ends⟩
  rw [Decoder.retire, ifAttached, program_bind, if_pos attached]
  exact ran

/-! ### A name that is written -/

namespace Decoder

/-- The tree of `var dec = f, d2 = dec; dec = true; d2;`. -/
def overwritten : Tree :=
  ⟨#[⟨.identifier "dec", some ⟨2⟩⟩, ⟨.identifier "f", some ⟨2⟩⟩,
    ⟨.variableDeclarator ⟨0⟩ (some ⟨1⟩), some ⟨6⟩⟩, ⟨.identifier "d2", some ⟨5⟩⟩,
    ⟨.identifier "dec", some ⟨5⟩⟩, ⟨.variableDeclarator ⟨3⟩ (some ⟨4⟩), some ⟨6⟩⟩,
    ⟨.variableDeclaration .var [⟨2⟩, ⟨5⟩], some ⟨13⟩⟩, ⟨.identifier "dec", some ⟨9⟩⟩,
    ⟨.literal (.boolean true), some ⟨9⟩⟩, ⟨.assignment .assign ⟨7⟩ ⟨8⟩, some ⟨10⟩⟩,
    ⟨.expressionStatement ⟨9⟩, some ⟨13⟩⟩, ⟨.identifier "d2", some ⟨12⟩⟩,
    ⟨.expressionStatement ⟨11⟩, some ⟨13⟩⟩, ⟨.program [⟨6⟩, ⟨10⟩, ⟨12⟩], none⟩]⟩

theorem exists_overwritten :
    ∃ p v, Program.ofTree overwritten ⟨13⟩ = .ok p ∧ p.Steady ∧ p.tree = overwritten ∧
      p.root = ⟨13⟩ ∧ aliases p "dec" = [⟨⟨5⟩, "d2", "dec"⟩] ∧
        resolve "dec" (fun _ => none) (aliases p "dec") ⟨p, default⟩ = .ok false v ∧
        v.program = p := by
  have linked : overwritten.Linked := Tree.linked_of_checks (by decide)
  have isTop : overwritten.IsTop ⟨13⟩ := ⟨by decide, by decide⟩
  obtain ⟨scopes, made, steady⟩ := Program.exists_steady overwritten ⟨13⟩ linked isTop
    (Tree.wellBound_of_bindsWell (by decide)) rfl
  let p : Program := ⟨overwritten, ⟨13⟩, scopes, false⟩
  have steady : p.Steady := steady
  have means : (overwritten.lexicon ⟨13⟩).meaning? ⟨3⟩ = some ⟨⟨13⟩, "d2", .var, ⟨5⟩, ⟨3⟩⟩ := by
    decide
  obtain ⟨binding, belongs, stands⟩ := steady.sound.exists_of_meaning? means
  have bound := Lexicon.meaning?_some means
  have found : p.scopes.find? ⟨13⟩ "d2" = some binding := by
    have found := belongs
    rw [steady.sound.bindingOf?_eq] at found
    exact (congrArg (Option.bind · _) means).symm.trans found
  have unwritten : (p.binding binding).mutations = [] := by
    refine steady.sound.mutations_eq_nil bound found fun id => ?_
    have reading : ∀ id ∈ overwritten.descendants ⟨13⟩,
        (overwritten.useAt? id).all
          (fun use => !use.role.writes || (overwritten.lexicon ⟨13⟩).look? use.sight use.name ≠
            some ⟨⟨13⟩, "d2", .var, ⟨5⟩, ⟨3⟩⟩) = true := by decide
    have single : ∀ e ∈ (overwritten.lexicon ⟨13⟩).declared,
        (overwritten.lexicon ⟨13⟩).binder? e.owner e.name = some e := by decide
    rintro (⟨use, isUse, writes, means⟩ | ⟨other, declared, -, different, isBound⟩)
    · obtain ⟨attached, isUse⟩ := Option.ite_none_right_eq_some.mp isUse
      have reads := reading id ((linked.mem_descendants_iff isTop.allocated).mpr attached)
      rw [isUse, Option.all_some, writes] at reads
      exact of_decide_eq_true reads means
    · exact different (Option.some.inj ((single other declared).symm.trans isBound))
  have constant : p.isConstantVariable binding = true := by
    rw [steady.sound.isConstantVariable_eq stands unwritten]
    rfl
  have isAlias : Copy.alias? p "dec" ⟨⟨5⟩, ⟨3⟩, "dec"⟩ = some ⟨⟨5⟩, "d2", "dec"⟩ := by
    simp [Copy.alias?, belongs, constant, Program.binding, stands.identifier, stands.name]
  have isOther (target : String) (copy : Copy) (different : copy.copied ≠ target) :
      Copy.alias? p target copy = none := by
    simp [Copy.alias?, different]
  have copies : p.nodes.filterMap (copy? p) = [⟨⟨2⟩, ⟨0⟩, "f"⟩, ⟨⟨5⟩, ⟨3⟩, "dec"⟩] := rfl
  have areAliases : aliases p "dec" = [⟨⟨5⟩, "d2", "dec"⟩] := by
    rw [aliases, copies]
    simp [search, isAlias, isOther, addAlias]
  have none : p.nodes.filter (callsOneOf ["dec", "d2"] p) = [] := rfl
  let noted : Context := { (default : Context) with
    journal := (default : Context).journal.record ⟨.dispatcherIdentified, "d2 → dec", some ⟨5⟩,
      Option.none⟩ }
  have called : visit (callsOneOf ["dec", "d2"]) (callStep fun _ => Option.none) ⟨p, noted⟩ =
      .ok false ⟨p, noted⟩ := by
    rw [visit, nodesWhere_bind, none]
    rfl
  refine ⟨p, ⟨p, noted⟩, made, steady, rfl, rfl, areAliases, ?_, rfl⟩
  rw [areAliases, resolve]
  exact (bind_of_ok _ rfl).trans called

theorem follows_overwritten {p : Program} (isTree : p.tree = overwritten) (isRoot : p.root = ⟨13⟩) :
    p.lexicon.meaning? ⟨4⟩ = some ⟨⟨13⟩, "dec", .var, ⟨2⟩, ⟨0⟩⟩ ∧
    p.lexicon.Writes ⟨⟨13⟩, "dec", .var, ⟨2⟩, ⟨0⟩⟩ ⟨7⟩ ∧
      Follows p ⟨⟨5⟩, "d2", "dec"⟩ ⟨⟨13⟩, "d2", .var, ⟨5⟩, ⟨3⟩⟩ (p.lexicon.meaning? ⟨4⟩) ⟨11⟩ := by
  have isLexicon : p.lexicon = overwritten.lexicon ⟨13⟩ := by rw [Program.lexicon, isTree, isRoot]
  rw [Follows, isLexicon, isTree]
  refine ⟨by decide, .inl ⟨⟨"dec", .mutation, [⟨13⟩]⟩, rfl, rfl, by decide⟩, ?_, by decide⟩
  exact ⟨⟨"d2", .reference, [⟨13⟩]⟩, rfl, rfl, by decide⟩

theorem forwards_overwritten {p : Program} (isTree : p.tree = overwritten) (isRoot : p.root = ⟨13⟩)
    (forwards : Alias.Forwards ⟨⟨5⟩, "d2", "dec"⟩ p init d) :
    init = ⟨4⟩ ∧ d = ⟨⟨13⟩, "d2", .var, ⟨5⟩, ⟨3⟩⟩ := by
  have shape := forwards.shape
  have means := forwards.means
  simp only [Program.node, isTree] at shape
  obtain ⟨isName, isInit⟩ := Node.variableDeclarator.inj shape
  rw [← isName, Program.lexicon, isTree, isRoot] at means
  refine ⟨(Option.some.inj isInit).symm, ?_⟩
  have isMeant : (overwritten.lexicon ⟨13⟩).meaning? ⟨3⟩ = some ⟨⟨13⟩, "d2", .var, ⟨5⟩, ⟨3⟩⟩ := by
    decide
  exact Option.some.inj (means.symm.trans isMeant)

end Decoder

/-- The use of `d2` in `overwritten` is put in other words. -/
theorem Program.Steady.exists_forwards_uses :
    ∃ (p : Program) (v : Workspace) (r : Program) (now : NodeId → NodeId),
      Program.ofTree Decoder.overwritten ⟨13⟩ = .ok p ∧ p.Steady ∧
        (p.tree.Sorted fun id => p.isAttached id = true) ∧
        (Decoder.aliases p "dec").reverse = [⟨⟨5⟩, "d2", "dec"⟩] ∧
          Decoder.resolve "dec" (fun _ => none) (Decoder.aliases p "dec") ⟨p, default⟩ =
            .ok false v ∧
            v.program.isAttached ⟨5⟩ = true ∧ now ⟨11⟩ ≠ ⟨11⟩ ∧
              r.node (now ⟨11⟩) = .identifier "dec" ∧
                r.lexicon.meaning? (now ⟨11⟩) = p.lexicon.meaning? ⟨4⟩ := by
  obtain ⟨p, v, made, steady, isTree, isRoot, areAliases, resolves, same⟩ :=
    Decoder.exists_overwritten
  have sorted : p.tree.Sorted fun id => p.isAttached id = true := by
    refine steady.sound.rooted.sorted_of_isSorted ?_
    rw [isTree]
    exact (show Decoder.overwritten.isSorted = true by decide)
  have attached : v.program.isAttached ⟨5⟩ = true := by
    rw [same, Program.isAttached, isTree, isRoot]
    decide
  have order : (Decoder.aliases p "dec").reverse = [] ++ [⟨⟨5⟩, "d2", "dec"⟩] := by
    rw [areAliases]; rfl
  obtain ⟨init, d, forwards, _, _, r, now, -, recast, means, -⟩ :=
    steady.forwards_uses sorted order resolves rfl attached
  obtain ⟨rfl, rfl⟩ := Decoder.forwards_overwritten isTree isRoot forwards
  obtain ⟨-, -, follows⟩ := Decoder.follows_overwritten isTree isRoot
  have attachedUse : p.isAttached ⟨11⟩ = true := by
    rw [Program.isAttached, isTree, isRoot]
    decide
  rw [same] at recast means
  exact ⟨p, v, r, now, made, steady, sorted, order, resolves, attached,
    (recast.moved_iff attachedUse).mpr follows, recast.spelled attachedUse follows, means _ follows⟩

/--
A run on `overwritten` puts the name of a variable that is written into the place of a use of an
alias of it. -/
theorem Rule.exists_forwarded_written :
    ∃ (p r : Program) (w : Workspace) (changed : Bool) (now : NodeId → NodeId)
      (d target : Declaration), Program.ofTree Decoder.overwritten ⟨13⟩ = .ok p ∧ p.Steady ∧
        ⟨⟨5⟩, "d2", "dec"⟩ ∈ Decoder.aliases p "dec" ∧
          (Rule.dispatcherResolution "dec" fun _ => none).run ⟨p, default⟩ = .ok changed w ∧
            p.Recast r (Decoder.Follows p ⟨⟨5⟩, "d2", "dec"⟩ d (some target))
              (.identifier "dec") now ∧
              (w.program = r ∨ r.remove ⟨5⟩ = .ok w.program) ∧
                Decoder.Follows p ⟨⟨5⟩, "d2", "dec"⟩ d (some target) ⟨11⟩ ∧
                r.lexicon.meaning? (now ⟨11⟩) = some target ∧
                  p.lexicon.Writes target ⟨7⟩ ∧ r.lexicon.Writes target ⟨7⟩ := by
  obtain ⟨_, ⟨p, noted⟩, made, steady, isTree, isRoot, areAliases, resolves, rfl⟩ :=
    Decoder.exists_overwritten
  obtain ⟨isTarget, writes, follows⟩ := Decoder.follows_overwritten isTree isRoot
  have isAlias : ⟨⟨5⟩, "d2", "dec"⟩ ∈ Decoder.aliases p "dec" :=
    areAliases ▸ List.mem_singleton_self _
  obtain ⟨init, d, forwards⟩ := Decoder.exists_forwards steady isAlias
  obtain ⟨rfl, rfl⟩ := Decoder.forwards_overwritten isTree isRoot forwards
  obtain ⟨answer, left, r, now, ran, after, recast, means, ends⟩ :=
    Decoder.exists_forwarded ⟨⟨5⟩, "d2", "dec"⟩ noted steady forwards.attached forwards.shape
      forwards.means
  rw [isTarget] at recast means follows
  have retired : SimplifyM.anyChange [⟨⟨5⟩, "d2", "dec"⟩] Decoder.retire ⟨p, noted⟩ =
      .ok (answer || false) left := by
    have first : Decoder.retire ⟨⟨5⟩, "d2", "dec"⟩ ⟨p, noted⟩ = .ok answer left := by
      rw [Decoder.retire, ifAttached, program_bind, if_pos forwards.attached]
      exact ran
    rw [anyChange_cons, bind_of_ok _ first]
    rfl
  have runs : (Rule.dispatcherResolution "dec" fun _ => none).run ⟨p, default⟩ =
      .ok (false || (answer || false)) left := by
    rw [Rule.run, Decoder.run_eq, program_bind, bind_of_ok _ resolves, areAliases,
      List.reverse_singleton, bind_of_ok _ retired]
    rfl
  -- Nothing that stays is written less.
  have attached : p.isAttached ⟨7⟩ = true := by
    rw [Program.isAttached, isTree, isRoot]
    decide
  have kept : now ⟨7⟩ = ⟨7⟩ := by
    by_contra moved
    have reads := Lexicon.meaning?_of_reads ((recast.moved_iff attached).mp moved).1
    rw [(steady.linked.regular steady.isTop).meaning?_of_writes writes] at reads
    exact absurd reads (by decide)
  exact ⟨p, r, left, _, now, _, _, made, steady, isAlias, runs, recast,
    ends.imp_right And.left, follows, means _ follows, writes,
    recast.writes_kept steady.sound.rooted after.sound.rooted attached kept writes⟩

end Unravel
