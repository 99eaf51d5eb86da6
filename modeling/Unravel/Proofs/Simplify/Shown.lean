import Unravel.Proofs.Simplify.Honest
import Unravel.Proofs.Simplify.Recorded
import Unravel.Proofs.Simplify.Rules

/-!
Which changes are recorded (`Rule.reports_iff`). A rule that answers yes has recorded a change, but
for two rules: a string that loses nothing but its spelling is not recorded, and neither is a use of
an alias that is redirected.
-/

namespace Unravel

open SimplifyM Workspace

variable {p : Program} {c : Context} {w v mid : Workspace} {answer : Bool} {id : NodeId}

/-! ### Strings -/

namespace Escapes

def Decodes (p : Program) (id : NodeId) : Prop := ∃ value, plan? (p.node id) = some (value, true)

theorem exists_of_plan? {n : Node NodeId} {planned : String × Bool}
    (found : plan? n = some planned) :
    ∃ value raw, n = .literal (.string value raw) := by
  unfold plan? at found
  split at found
  · exact ⟨_, _, rfl⟩
  · cases found

theorem plan?_of_tag {n n' : Node NodeId} (same : n'.tag = n.tag) {planned : String × Bool}
    (found : plan? n = some planned) : plan? n' = some planned := by
  obtain ⟨value, raw, rfl⟩ := exists_of_plan? found
  cases n' with
  | literal l =>
    cases same
    exact found
  | _ => cases same

theorem decodes_iff {q : Program} (leads : p.Leads q) (allocated : p.tree.Allocated id) :
    Decodes q id ↔ Decodes p id := by
  have same := leads.tag allocated
  exact ⟨fun ⟨value, found⟩ => ⟨value, plan?_of_tag same.symm found⟩,
    fun ⟨value, found⟩ => ⟨value, plan?_of_tag same found⟩⟩

theorem step_cases (ran : step id w = .ok answer mid) :
    Decodes w.program id ∧ answer = true ∧ w.Reports mid ∨ ¬Decodes w.program id ∧ w.Mutes mid := by
  rw [step, program_bind] at ran
  cases found : plan? (w.program.node id) with
  | none =>
    simp only [found] at ran
    obtain ⟨-, rfl⟩ := EStateM.Result.ok.inj ran
    exact .inr ⟨by simp [Decodes, found], .of_eq rfl⟩
  | some planned =>
    obtain ⟨value, decoded⟩ := planned
    simp only [found] at ran
    cases decoded with
    | true =>
      have tells : Tells (do
          let literal ← SimplifyM.build (Tree.stringLiteral value)
          SimplifyM.replaceAndRecord .stringDecoded "" id literal
          return true) := .bind (.edit _) fun _ => .recorded (.replaceAndRecord rfl)
      exact .inl ⟨⟨value, found⟩, tells.of_affirms (.bind fun _ => .thenYes) ran⟩
    | false =>
      have silent : Silent (do
          let literal ← SimplifyM.build (Tree.stringLiteral value)
          discard (SimplifyM.replace id literal)
          return true) := .bind (.edit _) fun _ => .bind (.discard (.edit _)) fun _ => .pure _
      exact .inr ⟨by simp [Decodes, found], silent _ _ _ ran⟩

theorem reports_of_anyChange {items : List NodeId} (steady : w.program.Steady)
    (allocated : ∀ id ∈ items, w.program.tree.Allocated id)
    (ran : anyChange items step w = .ok answer v) :
    w.Extends v ∧ (w.Reports v ↔ ∃ id ∈ items, Decodes w.program id) ∧
      (w.Reports v → answer = true) := by
  induction items generalizing w answer with
  | nil =>
    obtain ⟨-, rfl⟩ := EStateM.Result.ok.inj ran
    have mutes : w.Mutes w := .of_eq rfl
    exact ⟨mutes.toExtends, iff_of_false mutes.not_reports (by simp),
      fun reports => absurd reports mutes.not_reports⟩
  | cons head rest induction =>
    rw [anyChange_cons] at ran
    obtain ⟨first, mid, others, stepped, ranRest, rfl⟩ := exists_of_or ran
    obtain ⟨isAllocated, allocated⟩ := List.forall_mem_cons.mp allocated
    have result := steadily_step head steady w.context
    rw [stepped] at result
    obtain ⟨after, leads, -⟩ := result
    obtain ⟨further, reports, yes⟩ := induction after
      (fun id member => leads.allocated (allocated id member)) ranRest
    have same : (∃ id ∈ rest, Decodes mid.program id) ↔ ∃ id ∈ rest, Decodes w.program id :=
      exists_congr fun id => and_congr_right fun member => decodes_iff leads (allocated id member)
    simp only [List.exists_mem_cons_iff]
    rcases step_cases stepped with ⟨decodes, rfl, reported⟩ | ⟨not, mutes⟩
    · have reported := reported.after further
      exact ⟨reported.toExtends, iff_of_true reported (.inl decodes), fun _ => Bool.true_or _⟩
    · rw [mutes.reports_iff further, reports, same, or_iff_right not]
      exact ⟨mutes.toExtends.trans further, .rfl, fun decodes => by
        rw [yes (reports.mpr (same.mpr decodes)), Bool.or_true]⟩

theorem reports_iff (steady : p.Steady) (ran : run ⟨p, c⟩ = .ok answer w) :
    Extends ⟨p, c⟩ w ∧ (Reports ⟨p, c⟩ w ↔ answer = true ∧ ∃ id ∈ p.nodes, Decodes p id) := by
  rw [run, nodesWhere_bind] at ran
  have rooted := steady.sound.rooted
  have allocated {id : NodeId} (member : id ∈ p.nodes) : p.tree.Allocated id :=
    rooted.allocated_of_isAttached (rooted.isAttached_of_mem_nodes member)
  obtain ⟨added, reports, yes⟩ :=
    reports_of_anyChange steady (fun id member => allocated (List.mem_filter.mp member).1) ran
  have same : (∃ id ∈ p.nodes.filter fun id => (p.node id).string?.isSome, Decodes p id) ↔
      ∃ id ∈ p.nodes, Decodes p id := by
    refine exists_congr fun id => and_congr_left fun ⟨value, found⟩ => ?_
    obtain ⟨text, raw, isString⟩ := exists_of_plan? found
    rw [List.mem_filter, isString]
    exact and_iff_left rfl
  rw [← same, ← reports]
  exact ⟨added, fun reports => ⟨yes reports, reports⟩, And.right⟩

end Escapes

/-! ### Dispatchers -/

namespace Decoder

variable {name : String} {primitive : Primitive} {a : Alias} {found : List Alias}
  {start : Workspace} {calls : List NodeId} {reference target replacement placed : NodeId}
  {after : Program} {held : List NodeId} {grown : Tree} {e : Event}

theorem mem_foldl_addAlias {fresh : List Alias} {known : List String × List Alias}
    (member : a ∈ (fresh.foldl addAlias known).2) : a ∈ known.2 ∨ a ∈ fresh := by
  induction fresh generalizing known with
  | nil => exact .inl member
  | cons head rest induction =>
    rcases induction member with isKnown | isFresh
    · rw [addAlias] at isKnown
      split at isKnown
      · exact .inl isKnown
      · refine (List.mem_append.mp isKnown).imp_right fun isHead => ?_
        rw [List.mem_singleton.mp isHead]
        exact List.mem_cons_self ..
    · exact .inr (List.mem_cons_of_mem _ isFresh)

theorem mem_search {copies : List Copy} {limit : Nat} {stack visited : List String}
    (member : a ∈ search p copies limit stack visited found) :
    a ∈ found ∨ ∃ copy ∈ copies, a.declarator = copy.declarator := by
  induction limit generalizing stack visited found with
  | zero => exact .inl member
  | succ limit induction =>
    cases stack with
    | nil => exact .inl member
    | cons top stack =>
      rcases induction member with isFound | isCopy
      · refine (List.mem_append.mp isFound).imp_right fun isFresh => ?_
        have isAlias := (mem_foldl_addAlias isFresh).resolve_left List.not_mem_nil
        obtain ⟨copy, isCopy, made⟩ := List.mem_filterMap.mp isAlias
        refine ⟨copy, isCopy, ?_⟩
        simp only [Copy.alias?, Option.bind_eq_bind, Option.bind_eq_some_iff,
          Option.ite_none_right_eq_some, Option.some.injEq] at made
        obtain ⟨_, -, -, rfl⟩ := made
        rfl
      · exact .inr isCopy

theorem exists_of_mem_aliases (member : a ∈ aliases p name) : a.declarator ∈ p.nodes ∧
    ∃ declared init, p.node a.declarator = .variableDeclarator declared (some init) := by
  obtain ⟨copy, isCopy, same⟩ := (mem_search member).resolve_left List.not_mem_nil
  obtain ⟨id, isNode, made⟩ := List.mem_filterMap.mp isCopy
  unfold copy? at made
  split at made
  · rename_i declared init shape
    obtain ⟨_, -, rfl⟩ := Option.map_eq_some_iff.mp made
    subst same
    exact ⟨isNode, declared, init, shape⟩
  · cases made

theorem tells_callStep (primitive : Primitive) (call : NodeId) :
    Tells (callStep primitive call) := by
  refine .program fun p => ?_
  split
  · exact .no
  · exact .bind (.edit _) fun _ => .recorded (.replaceAndRecord rfl)

theorem callStep_cases {call : NodeId} (ran : callStep primitive call w = .ok answer mid) :
    (result? w.program primitive call).isSome = true ∧ answer = true ∨
      result? w.program primitive call = none ∧ mid = w := by
  rw [callStep, program_bind] at ran
  cases found : result? w.program primitive call with
  | none =>
    simp only [found] at ran
    exact .inr ⟨rfl, (EStateM.Result.ok.inj ran).2.symm⟩
  | some value =>
    simp only [found] at ran
    have affirms : Affirms (do
        let encoded ← SimplifyM.build value.encode
        SimplifyM.replaceAndRecord .dispatcherResolved "" call encoded
        return true) := .bind fun _ => .thenYes
    cases answer with
    | false => exact absurd ran (affirms w mid)
    | true => exact .inl ⟨rfl, rfl⟩

theorem resolves_or_eq_of_calls (attached : ∀ call ∈ calls, w.program.isAttached call = true)
    (ran : anyChange calls (fun call => ifAttached call (callStep primitive call)) w =
      .ok answer v) :
    (∃ call ∈ calls, (result? w.program primitive call).isSome = true) ∧ answer = true ∨
      (∀ call ∈ calls, result? w.program primitive call = none) ∧ v = w := by
  induction calls generalizing answer with
  | nil =>
    obtain ⟨-, rfl⟩ := EStateM.Result.ok.inj ran
    exact .inr ⟨nofun, rfl⟩
  | cons head rest induction =>
    rw [anyChange_cons] at ran
    obtain ⟨first, mid, others, stepped, ranRest, rfl⟩ := exists_of_or ran
    obtain ⟨isAttached, attached⟩ := List.forall_mem_cons.mp attached
    rw [ifAttached, program_bind, if_pos isAttached] at stepped
    rcases callStep_cases stepped with ⟨resolvable, rfl⟩ | ⟨none, rfl⟩
    · exact .inl ⟨⟨head, List.mem_cons_self .., resolvable⟩, Bool.true_or _⟩
    · rcases induction attached ranRest with ⟨⟨call, member, resolvable⟩, isYes⟩ | ⟨all, same⟩
      · exact .inl ⟨⟨call, List.mem_cons_of_mem _ member, resolvable⟩, by rw [isYes, Bool.or_true]⟩
      · exact .inr ⟨List.forall_mem_cons.mpr ⟨none, all⟩, same⟩

/--
What is told of the aliases: of one that goes away a change is recorded, and uses that are
redirected are not. -/
inductive Told (found : List Alias) (start v : Workspace) : Prop
  | redirected (mutes : start.Mutes v)
      (remnant : start.program.Remnant (fun id => (start.program.node id).isIdentifier = true)
        v.program)
  | retired (a : Alias) (member : a ∈ found) (allocated : start.program.tree.Allocated a.declarator)
      (reports : start.Reports v) (remnant : start.program.Remnant (fun _ => True) v.program)
      (gone : v.program.isAttached a.declarator = false)

namespace Told

theorem initial (steady : w.program.Steady) :
    Told found w w := .redirected (.of_eq rfl) (.start steady)

variable (told : Told found start w)

include told

theorem toExtends : start.Extends w := by
  cases told with
  | redirected mutes => exact mutes.toExtends
  | retired _ _ _ reports => exact reports.toExtends

theorem remnant : start.program.Remnant (fun _ => True) w.program := by
  cases told with
  | redirected _ remnant => exact remnant.weaken fun _ _ => trivial
  | retired _ _ _ _ remnant => exact remnant

theorem grow (building : w.program.tree.Building held grown) :
    Told found start { w with program := { w.program with tree := grown } } := by
  cases told with
  | redirected mutes remnant => exact .redirected (mutes.trans (.of_eq rfl)) (remnant.grow building)
  | retired a member allocated reports remnant gone =>
    refine .retired a member allocated reports (remnant.grow building) ?_
    rw [← gone]
    exact remnant.rooted.isAttached_grow building.grows _

theorem replace (free : w.program.Free target)
    (isIdentifier : (w.program.node target).isIdentifier = true)
    (allocated : w.program.tree.Allocated replacement)
    (isNew : ¬start.program.tree.Allocated replacement)
    (done : w.program.replace target replacement = .ok (placed, after)) :
    Told found start { w with program := after } := by
  cases told with
  | redirected mutes remnant =>
    have wasIdentifier (was : start.program.tree.Allocated target) :
        (start.program.node target).isIdentifier = true := by
      rwa [← Node.isIdentifier_tag, ← remnant.tag was, Node.isIdentifier_tag]
    obtain ⟨remnant, -⟩ := remnant.replace free.notBinding free.notDeclaring allocated isNew
      wasIdentifier done
    exact .redirected (mutes.trans (.of_eq rfl)) remnant
  | retired a member isOld reports remnant gone =>
    obtain ⟨remnant, stays⟩ :=
      remnant.replace free.notBinding free.notDeclaring allocated isNew (fun _ => trivial) done
    refine .retired a member isOld reports remnant (Bool.eq_false_iff.mpr fun attached => ?_)
    rw [stays isOld attached] at gone
    cases gone

theorem remove (member : a ∈ found) (isOld : start.program.tree.Allocated a.declarator)
    (notPattern : (w.program.node a.declarator).isPattern = false)
    (isTransformation : e.kind.isTransformation = true)
    (done : w.program.remove a.declarator = .ok after) :
    Told found start (Workspace.logged { w with program := after } e) := by
  have remnant := (told.remnant.remove notPattern (fun _ => trivial) done).1
  have gone := (Program.Taken.of_remove told.remnant.steady.sound done).isAttached_eq_false
    remnant.rooted
  exact .retired a member isOld (.before told.toExtends (reports_logged isTransformation)) remnant
    gone

end Told

/-- One workspace leads to another one, and of the aliases it is told. -/
structure Retires (found : List Alias) (start w v : Workspace) : Prop where
  leads : w.program.Leads v.program
  told : Told found start v

theorem route_retires : Route (Retires found start) fun _ _ => True where
  stay retires := ⟨.refl _, retires.told⟩
  trans first second := ⟨first.leads.trans second.leads, second.told⟩
  fails _ _ := trivial

abbrev Retiring (found : List Alias) (start w : Workspace) (action : SimplifyM Bool) : Prop :=
  Through (Retires found start) (fun _ _ => True) w action always

theorem retiring_redirect (a : Alias) (meaning : Option BindingId) (told : Told found start w)
    (free : w.program.Free reference)
    (isIdentifier : (w.program.node reference).isIdentifier = true) :
    Retiring found start w (redirect a meaning reference) := by
  have here : Retires found start w w := ⟨.refl _, told⟩
  have steady := told.remnant.steady
  refine .program ?_
  split
  · have built : Through (Retires found start) (fun _ _ => True) w
        (SimplifyM.build (Tree.identifier a.target))
          fun identifier v => v.program.tree.Allocated identifier ∧
            ¬start.program.tree.Allocated identifier := by
      refine .build steady (Tree.makes_identifier a.target) fun identifier grown building => ?_
      have loose := building.loose identifier (List.mem_singleton_self _)
      exact ⟨⟨(steady.grow building).2, told.grow building⟩, loose.allocated,
        fun isOld => loose.new (told.remnant.allocated isOld)⟩
    refine .bind route_retires built fun identifier v retires ⟨allocated, isNew⟩ => ?_
    have placed :
        Through (Retires found start) (fun _ _ => True) v (SimplifyM.replace reference identifier)
          always := by
      refine .edit trivial fun placed after done => ?_
      have free := free.leads retires.leads
      refine ⟨⟨(retires.told.remnant.steady.replace allocated free.notBinding
        free.notDeclaring done).2, retires.told.replace free ?_ allocated isNew done⟩, trivial⟩
      rwa [← Node.isIdentifier_tag, Program.node,
        retires.leads.tag (Tree.allocated_of_isIdentifier isIdentifier), Node.isIdentifier_tag]
    exact .thenReturn route_retires (.discard route_retires placed)
  · exact .pure here trivial

theorem retiring_removeStep {declared : NodeId} (told : Told found start w) (member : a ∈ found)
    (isOld : start.program.tree.Allocated a.declarator)
    (notPattern : (w.program.node a.declarator).isPattern = false) :
    Retiring found start w (removeStep a declared) := by
  refine .program ?_
  dsimp only
  split
  · -- A removal is told of once it has been recorded.
    refine .of_success fun _ v ran => ?_
    obtain ⟨_, mid, removed, ran⟩ := exists_of_bind_ok ran
    obtain ⟨-, rfl⟩ := EStateM.Result.ok.inj ran
    rw [SimplifyM.remove, SimplifyM.edit] at removed
    cases done : w.program.remove a.declarator with
    | error e => simp [done, bind, Except.bind] at removed
    | ok after =>
      simp only [done, bind, Except.bind, pure, Except.pure] at removed
      obtain ⟨-, rfl⟩ := EStateM.Result.ok.inj removed
      have leads := (told.remnant.steady.remove done).2.1
      exact ⟨⟨leads, told.remove member isOld notPattern rfl done⟩, trivial⟩
  · exact .pure ⟨.refl _, told⟩ trivial

theorem retiring_aliasStep (told : Told found start w) (member : a ∈ found)
    (isOld : start.program.tree.Allocated a.declarator) : Retiring found start w (aliasStep a) := by
  have here : Retires found start w w := ⟨.refl _, told⟩
  have steady := told.remnant.steady
  refine .program ?_
  split
  · rename_i declared init shape
    split
    · exact .pure here trivial
    · rename_i binding belongs
      refine .bindAlways route_retires
        (.anyChange route_retires here fun reference isReference v retires => ?_)
        fun redirected v retires =>
          .bindAlways route_retires (retiring_removeStep retires.told member isOld ?_)
            fun _ _ retires => .pure (route_retires.stay retires) trivial
      · have free := steady.sound.free_of_reference belongs isReference
        have isIdentifier := (steady.sound.isUse_of_reference belongs isReference).1
        refine retiring_redirect a _ retires.told (free.leads retires.leads) ?_
        rwa [← Node.isIdentifier_tag, Program.node, retires.leads.tag free.allocated,
          Node.isIdentifier_tag]
      · exact retires.leads.isPattern_eq_false (by rw [shape]; rfl)
  · exact .pure here trivial

theorem retiring_aliases (steady : w.program.Steady)
    (isOld : ∀ a ∈ found, w.program.tree.Allocated a.declarator) :
    Retiring found w w (anyChange found.reverse fun a => ifAttached a.declarator (aliasStep a)) :=
  .anyChange route_retires ⟨.refl _, .initial steady⟩ fun a member _ retires =>
    .ifAttached ⟨.refl _, retires.told⟩ fun _ =>
      retiring_aliasStep retires.told (List.mem_reverse.mp member)
        (isOld a (List.mem_reverse.mp member))

theorem Told.reports_iff (told : Told found start w)
    (declarators : ∀ a ∈ found, start.program.isAttached a.declarator = true ∧
      ∃ declared init, start.program.node a.declarator = .variableDeclarator declared init) :
    start.Reports w ↔ ∃ a ∈ found, w.program.isAttached a.declarator = false := by
  cases told with
  | retired a member _ reports _ gone => exact iff_of_true reports ⟨a, member, gone⟩
  | redirected mutes remnant =>
    refine iff_of_false mutes.not_reports fun ⟨a, member, gone⟩ => ?_
    obtain ⟨attached, declared, init, shape⟩ := declarators a member
    rcases remnant.gone attached gone with isDeclaration | ⟨outer, isIdentifier, within, -⟩
    · rw [shape] at isDeclaration
      cases isDeclaration
    · -- A declarator is no part of an identifier.
      rw [← remnant.origin.linked.eq_of_isWithin_identifier isIdentifier within, shape]
        at isIdentifier
      cases isIdentifier

def Notes (w v : Workspace) : Prop := v.program = w.program ∧ w.Mutes v

theorem notes_of_forIn (text : Alias → String) :
    Through Notes (fun _ _ => True) w (forIn found PUnit.unit fun a _ => do
    SimplifyM.record .dispatcherIdentified a.declarator (text a)
    return ForInStep.yield PUnit.unit) always := by
  have route : Route Notes fun _ _ => True :=
    ⟨fun _ => ⟨rfl, .of_eq rfl⟩,
      fun first second => ⟨second.1.trans first.1, first.2.trans second.2⟩, fun _ _ => trivial⟩
  refine .forIn route ⟨rfl, .of_eq rfl⟩ fun a _ v _ => .yields route (.of_success fun _ u ran => ?_)
  obtain ⟨-, rfl⟩ := EStateM.Result.ok.inj ran
  exact ⟨⟨rfl, mutes_logged rfl⟩, trivial⟩

theorem reports_iff (steady : p.Steady) (ran : Decoder.run name primitive ⟨p, c⟩ = .ok answer w) :
    Extends ⟨p, c⟩ w ∧ (Reports ⟨p, c⟩ w ↔ answer = true ∧
      ((∃ call ∈ p.nodes, callsOneOf (name :: (aliases p name).map (·.name)) p call = true ∧
        (result? p primitive call).isSome = true) ∨
      ∃ a ∈ aliases p name, w.program.isAttached a.declarator = false)) := by
  have rooted := steady.sound.rooted
  rw [Decoder.run, program_bind] at ran
  dsimp only at ran
  have attached {id : NodeId} (member : id ∈ p.nodes) : p.isAttached id = true :=
    rooted.isAttached_of_mem_nodes member
  have declarators (a : Alias) (member : a ∈ aliases p name) : p.isAttached a.declarator = true ∧
      ∃ declared init, p.node a.declarator = .variableDeclarator declared init := by
    obtain ⟨isNode, declared, init, shape⟩ := exists_of_mem_aliases member
    exact ⟨attached isNode, declared, some init, shape⟩
  generalize aliases p name = found at ran declarators ⊢
  obtain ⟨_, ⟨q, c'⟩, mentions, ran⟩ := exists_of_bind_ok ran
  obtain ⟨resolved, called, retired, calls, retires, rfl⟩ := exists_of_or ran
  obtain ⟨⟨same, mutes⟩, -⟩ := (notes_of_forIn fun a => a.name ++ " → " ++ a.target).of_ok mentions
  obtain rfl : q = p := same
  have steadily := steadily_calls (name :: found.map (·.name)) primitive steady c'
  rw [calls] at steadily
  obtain ⟨steadyCalled, leads, -⟩ := steadily
  obtain ⟨-, reports⟩ := Tells.visit (tells_callStep primitive) _ _ _ calls
  rw [visit, nodesWhere_bind] at calls
  have told := ((retiring_aliases steadyCalled fun a member => leads.allocated
    (rooted.allocated_of_isAttached (declarators a member).1)).of_ok retires).1.told
  rcases resolves_or_eq_of_calls (fun call member => attached (List.mem_filter.mp member).1)
    calls with ⟨⟨call, member, resolvable⟩, rfl⟩ | ⟨none, rfl⟩
  · obtain ⟨isNode, calls⟩ := List.mem_filter.mp member
    have reports := ((reports.mpr rfl).after told.toExtends).before mutes.toExtends
    exact ⟨reports.toExtends,
      iff_of_true reports ⟨Bool.true_or _, .inl ⟨call, isNode, calls, resolvable⟩⟩⟩
  · refine ⟨mutes.toExtends.trans told.toExtends, ?_⟩
    have retiredOnly : ¬∃ call ∈ q.nodes, callsOneOf (name :: found.map (·.name)) q call = true ∧
        (result? q primitive call).isSome = true := by
      rintro ⟨call, isNode, calls, resolvable⟩
      rw [none call (List.mem_filter.mpr ⟨isNode, calls⟩)] at resolvable
      cases resolvable
    rw [mutes.reports_iff told.toExtends, told.reports_iff declarators,
      or_iff_right retiredOnly, iff_and_self]
    rintro ⟨a, member, gone⟩
    cases retired with
    | true => exact Bool.or_true _
    | false =>
      have honest :
          Honest (anyChange found.reverse fun a => ifAttached a.declarator (aliasStep a)) :=
        .anyChange fun a => .ifAttached (honest_aliasStep a)
      have still := ((honest _ _ rooted retires).unchanged rooted a.declarator).1
      rw [gone, (declarators a member).1] at still
      cases still

end Decoder

/-! ### All rules -/

namespace Rule

/-- A change that a rule makes of a program is recorded: a string is decoded, a call of a dispatcher
is resolved or an alias of it goes away. All other rules record whatever they change. -/
def Shows (p q : Program) : Rule → Prop
  | unicodeDecode => ∃ id ∈ p.nodes, Escapes.Decodes p id
  | dispatcherResolution name primitive =>
    (∃ call ∈ p.nodes,
      Decoder.callsOneOf (name :: (Decoder.aliases p name).map (·.name)) p call = true ∧
        (Decoder.result? p primitive call).isSome = true) ∨
    ∃ a ∈ Decoder.aliases p name, q.isAttached a.declarator = false
  | _ => True

theorem reports_iff (rule : Rule) (steady : p.Steady) (ran : rule.run ⟨p, c⟩ = .ok answer w) :
    Extends ⟨p, c⟩ w ∧ (Reports ⟨p, c⟩ w ↔ answer = true ∧ rule.Shows p w.program) := by
  have told (tells : Tells rule.run) :
      Extends ⟨p, c⟩ w ∧ (Reports ⟨p, c⟩ w ↔ answer = true ∧ True) :=
    (tells _ _ _ ran).imp_right fun reports => by rw [reports, and_true]
  cases rule with
  | dispatcherResolution name primitive => exact Decoder.reports_iff steady ran
  | unicodeDecode => exact Escapes.reports_iff steady ran
  | switchUnflattening => exact told FlatLoop.tells
  | computedCall => exact told DottedCall.tells
  | marshalUnwrap function mode => exact told (Marshal.tells function mode)
  | branchPruning => exact told Branch.tells
  | initializerChain => exact told (.program fun _ => Alias.tells_collapseAt _)
  | aliasCollapse => exact told (.bind (.nodesWhere _) fun _ => Alias.tells_collapseAt _)
  | functionInlining => exact told (.visit Call.tells_expandNamed)
  | iifeInlining => exact told Call.tells_immediate
  | objectMethodInlining => exact told TableEntry.tells_calls
  | memberPropertyInlining => exact told TableEntry.tells_reads
  | binaryProxy => exact told Proxy.tells
  | constInlining => exact told ConstantUse.tells
  | arrayIndexInlining => exact told ArrayRead.tells
  | constantFolding => exact told Folding.tells
  | unusedDeclaration => exact told (.program fun _ => Unused.tells_sweepWithin _)
  | objectReconstruction => exact told ObjectLiteral.tells
  | classReconstruction => exact told ClassForm.tells

end Rule

end Unravel
