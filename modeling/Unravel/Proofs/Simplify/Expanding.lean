import Unravel.Proofs.Simplify.Placing
import Unravel.Proofs.Simplify.Template
import Unravel.Proofs.Simplify.Unmissed

/-!
Calls are expanded orderly (`SimplifyM.Along.expandCall`): the expression of a function, copied with
the arguments in the places of its parameters, is a new operand.
-/

namespace Unravel

open SimplifyM Program

namespace Expansion

variable {o p q base : Program} {aim : Aim} {e : Expansion} {root value copy expression : NodeId}

def Pieces (o : Program) (aim : Aim) (p : Program) (value : NodeId) (q : Program) : Prop :=
  ∃ grown, q = { p with tree := grown } ∧ o.Parts aim IsOperand p.tree [value] grown

theorem orderly_fill (here : o.Orderly aim base base) (notNames : aim ≠ .names)
    (parts : o.Parts aim IsOperand base.tree [root] p.tree)
    (same : p = { base with tree := p.tree }) (isNew : ¬base.tree.Allocated copy)
    (allocated : p.tree.Allocated copy) (built : Pieces o aim p value q) :
    Along (o.Orderly aim) q (if copy = root then return value else do
        SimplifyM.build (modify fun t => t.replace copy value)
        return root) fun root r => Pieces o aim base root r ∧ p.tree.size ≤ r.tree.size := by
  have course := Along.course o aim
  obtain ⟨grown, rfl, more⟩ := built
  have both := parts.trans lasting_isOperand more
  rw [same]
  have start := here.grow both.grown
  split
  · exact .pure start.stay ⟨⟨grown, rfl, both.mono (by simp)⟩, more.grown.grows.size⟩
  · rename_i different
    have size : grown.size ≤ (grown.replace copy value).size :=
      Nat.le_of_eq (Tree.size_replace ..).symm
    have rest : p.tree.size ≤ grown.size := more.grown.grows.size
    obtain ⟨filled, tag⟩ : o.Parts aim IsOperand base.tree [root] (grown.replace copy value) ∧
        ∀ id, ((grown.replace copy value).node id).tag = (grown.node id).tag := by
      cases held : grown.parent? copy with
      | none =>
        rw [Tree.replace, held]
        exact ⟨both.mono (by simp), fun _ => rfl⟩
      | some parent =>
        have apart : grown.isWithin copy value = false :=
          more.grown.grows.not_isWithin_new parts.grown.grows.linked allocated
            (more.assembly.loose value (List.mem_singleton_self _)).new
        obtain ⟨edited, assembly⟩ := both.assembly.splice here.rooted.linked held isNew apart
        have operand (isOther : aim ≠ .links) := more.good isOther value (List.mem_singleton_self _)
        have isOwn (isOther : aim ≠ .links) := more.isNew isOther (List.mem_singleton_self value)
        refine ⟨⟨assembly, ⟨assembly.grows, fun isOther => ?_, fun isJumps => ?_,
          fun isNames => absurd isNames notNames⟩, parts.known, fun isOther id member => ?_⟩,
          edited.tag⟩
        · refine (both.grown.sorted isOther).edited edited ?_
          rintro n ⟨⟩
          exact ⟨.inr (isOwn isOther), .inl (operand isOther)⟩
        · have isOther : aim ≠ .links := by rintro rfl; cases isJumps
          refine (both.grown.calm isJumps).edited edited ?_
          rintro n ⟨⟩ j jumpsOut
          exact absurd jumpsOut
            ((both.grown.sorted isOther).not_jumpsOut_of_isOperand (.inr (isOwn isOther))
              (operand isOther))
        · rw [IsOperand, Node.isOperand_congr (edited.tag id)]
          exact both.good isOther id (List.mem_cons_of_mem _ member)
    have replaced : Along (o.Orderly aim) { base with tree := grown }
        (SimplifyM.build (modify fun t => t.replace copy value)) fun _ r =>
          r = { base with tree := grown.replace copy value } := by
      refine .edit course start.stay fun a r done => ?_
      cases done
      have after := here.grow filled.grown
      exact ⟨⟨⟨after.rooted, rfl, size, fun {id} _ => tag id⟩, after.neat, after.calm,
        fun isNames => absurd isNames notNames, fun isNames => absurd isNames notNames⟩, rfl⟩
    refine .bind course replaced fun _ r leads made => ?_
    subst made
    exact .pure leads.stay ⟨⟨_, rfl, filled⟩, Nat.le_trans rest size⟩

theorem orderly_expand (here : o.Orderly aim p p) (notNames : aim ≠ .names) (limit : Nat)
    (source : o.Source aim IsOperand p.tree expression)
    (defaults : ∀ param ∈ e.params, ∀ default, param.form = .defaulted default →
      o.Source aim IsOperand p.tree default)
    (arguments : ∀ argument ∈ e.arguments, o.Source aim IsOperand p.tree argument) :
    Along (o.Orderly aim) p (e.expand limit expression) (Pieces o aim p) := by
  induction limit generalizing expression p with
  | zero => exact .throw here.rooted
  | succ limit induction =>
    have course := Along.course o aim
    have linked := here.rooted.linked
    obtain ⟨copied, isRoot⟩ := linked.copied here.rooted.nonempty expression
    have start : o.Parts aim IsOperand p.tree [(Tree.copyMapped expression p.tree).1.1]
        (Tree.copyMapped expression p.tree).2 := yields_copy linked lasting_isOperand source []
          p.tree here.parts
    rw [expand]
    have copies : Along (o.Orderly aim) p (SimplifyM.build (Tree.copyMapped expression)) fun a q =>
        a = (Tree.copyMapped expression p.tree).1 ∧
          q = { p with tree := (Tree.copyMapped expression p.tree).2 } := by
      refine .edit course here fun a q done => ?_
      cases done
      exact ⟨here.grow start.grown, rfl, rfl⟩
    refine .program (.bind course copies fun result q leads made => ?_)
    obtain ⟨rfl, rfl⟩ := made
    dsimp only
    refine .mono (.foldlM course leads.stay ⟨⟨_, rfl, start⟩, Nat.le_refl _⟩ ?_)
      fun root q _ (built :
        Pieces o aim p root q ∧ (Tree.copyMapped expression p.tree).2.size ≤ q.tree.size) => built.1
    rintro ⟨id, param, index⟩ isUse root q leads ⟨⟨after, rfl, parts⟩, size⟩
    have leads := here.grow parts.grown
    have now := leads.stay
    obtain ⟨inside, isUse⟩ := (mem_uses linked ⟨rfl, .refl linked⟩ source.allocated).mp isUse
    obtain ⟨isNew, isCopy⟩ := copied.new id inside
    have place {value : NodeId} {r : Program}
        (built : Pieces o aim { p with tree := after } value r) :
        Along (o.Orderly aim) r _ fun root s => Pieces o aim p root s ∧
          (Tree.copyMapped expression p.tree).2.size ≤ s.tree.size :=
      (orderly_fill here notNames parts rfl isNew (Nat.lt_of_lt_of_le isCopy size) built).mono
        fun _ _ _ filled => ⟨filled.1, Nat.le_trans size filled.2⟩
    have copied {argument : NodeId} (given : argument ∈ e.arguments) :
        Along (o.Orderly aim) { p with tree := after } (build (Tree.copy argument))
          (Pieces o aim { p with tree := after }) :=
      .build now
        (yields_copy now.rooted.linked lasting_isOperand
          ((arguments argument given).follows leads.toFollows))
    have defaulted {default : NodeId} (form : param.form = .defaulted default) :
        Along (o.Orderly aim) { p with tree := after } (e.expand limit default)
          (Pieces o aim { p with tree := after }) :=
      induction now
        ((defaults param (mem_params_of_paramOf? isUse) default form).follows leads.toFollows)
          (fun other member default form =>
            (defaults other member default form).follows leads.toFollows)
          fun argument given => (arguments argument given).follows leads.toFollows
    have shop := workshop_parts o aim after
    split
    · rename_i argument _ given
      exact .bind course (copied (List.mem_of_getElem? given)) fun _ _ _ built => place built
    · exact .bind course (.build now (shop.identifier "undefined")) fun _ _ _ built => place built
    · have elements : Tree.Yields (o.Parts aim IsOperand after) [] Tree.piece
          (Expansion.restArray (e.arguments.drop index)) :=
        .bind (shop.mapM _ fun argument given => yields_copy now.rooted.linked lasting_isOperand
          ((arguments argument (List.mem_of_mem_drop given)).follows leads.toFollows))
          fun elements =>
            shop.alloc (.array elements) rfl
      exact .bind course (.build now elements) fun _ _ _ built => place built
    · rename_i form _
      exact .bind course (defaulted form) fun _ _ _ built => place built
    · rename_i argument form given
      refine .program ?_
      split
      · exact .bind course (defaulted form) fun _ _ _ built => place built
      · exact .bind course (copied (List.mem_of_getElem? given)) fun _ _ _ built => place built

end Expansion

namespace Program

variable {o p : Program} {aim : Aim} {function expression : NodeId}

theorem Orderly.source_of_singleReturn? (here : o.Orderly aim p p)
    (held : o.Held aim p.tree function) (found : p.tree.singleReturn? function = some expression) :
    o.Source aim IsOperand p.tree expression := by
  obtain ⟨f, only, shape, bodyShape, returnShape⟩ := Tree.of_singleReturn? found
  have body := here.held_child held (c := f.body) (by
    rw [show p.node function = _ from shape]
    simp [Node.children])
  have statement := here.held_child body (c := only) (by
    rw [show p.node f.body = _ from bodyShape]
    exact List.mem_singleton_self _)
  exact here.operand statement (by
    rw [show p.node only = _ from returnShape]
    exact List.mem_singleton_self _) (by
    rw [show p.node only = _ from returnShape]
    rfl)

theorem Orderly.source_of_default (here : o.Orderly aim p p) (held : o.Held aim p.tree function)
    {params : List Param}
    (made : (((p.node function).function?.map (·.params)).getD []).mapM p.param = .ok params)
    {param : Param} (member : param ∈ params) {default : NodeId}
    (form : param.form = .defaulted default) :
    o.Source aim IsOperand p.tree default := by
  obtain ⟨id, isParam, same⟩ := exists_of_mem_mapM made member
  obtain ⟨left, shape⟩ := shape_of_param same form
  have heldParam := here.held_child held (c := id) (by
    cases shape : p.node function <;> simp_all [Node.function?, Node.children])
  exact here.operand heldParam (by
    rw [shape]
    exact List.mem_cons_of_mem _ (List.mem_singleton_self _)) (by
    rw [shape]
    rfl)

theorem Orderly.source_of_argument (here : o.Orderly aim p p) {call callee argument : NodeId}
    {arguments : List NodeId} (attached : p.isAttached call = true)
    (shape : p.node call = .call callee arguments) (given : argument ∈ arguments) :
    o.Source aim IsOperand p.tree argument :=
  here.operand (here.held_of_isAttached attached) (by
    rw [shape]
    exact List.mem_cons_of_mem _ given) (by
    rw [shape]
    rfl)

end Program

namespace SimplifyM.Along

variable {o p : Program} {aim : Aim} {function expression call : NodeId} {arguments : List NodeId}
  {label : String}

theorem instantiate (here : o.Orderly aim p p) (notNames : aim ≠ .names)
    (held : o.Held aim p.tree function)
    (given : ∀ argument ∈ arguments, o.Source aim IsOperand p.tree argument) :
    Along (o.Orderly aim) p (SimplifyM.instantiate function arguments)
      (Expansion.Pieces o aim p) := by
  have course := Along.course o aim
  refine .program ?_
  split
  · exact .throw here.rooted
  · rename_i expression found
    have asks : Along (o.Orderly aim) p (SimplifyM.edit fun p' =>
        ((((p.node function).function?.map (·.params)).getD []).mapM p.param).map
          fun params => (params, p'))
          fun params q =>
            q = p ∧ (((p.node function).function?.map (·.params)).getD []).mapM p.param =
              .ok params := by
      refine .edit course here fun params q done => ?_
      cases made : (((p.node function).function?.map (·.params)).getD []).mapM p.param with
      | error e =>
        rw [made] at done
        cases done
      | ok params =>
        rw [made] at done
        cases done
        exact ⟨here, rfl, rfl⟩
    refine .bind course asks fun params q _ made => ?_
    obtain ⟨rfl, made⟩ := made
    exact Expansion.orderly_expand here notNames 65 (here.source_of_singleReturn? held found)
      (fun param member default form => here.source_of_default held made member form) given

theorem instantiate_names (here : o.Orderly .names p p) (held : o.Held .names p.tree function)
    (given : ∀ argument ∈ arguments, o.Source .names IsOperand p.tree argument) :
    Along (o.Orderly .names) p (SimplifyM.instantiate function arguments)
      (Expansion.Pieces o .names p) := by
  intro c
  have neat := here.neat nofun
  have steady := (here.steady rfl).1
  have places : Along (o.Orderly .places) p (SimplifyM.instantiate function arguments) _ :=
    instantiate (.places neat) nofun ⟨fun _ => held.owned nofun, held.allocated⟩
      fun argument member =>
        ⟨⟨fun _ => (given argument member).owned nofun, (given argument member).allocated⟩,
          fun _ => (given argument member).good nofun⟩
  specialize places c
  have steadily : Steadily p (SimplifyM.instantiate function arguments) _ :=
    Runs.steadily_instantiate steady (fun argument member => (given argument member).allocated)
  specialize steadily c
  split at places
  · rename_i value w made
    obtain ⟨-, grown, isGrown, parts⟩ := places
    rw [made] at steadily
    obtain ⟨after, leads, -⟩ := steadily
    rw [isGrown] at after leads ⊢
    have whole : o.Parts .names IsOperand p.tree [value] grown :=
      ⟨parts.assembly, ⟨parts.grown.grows, fun _ => parts.grown.sorted nofun, nofun,
        fun _ => after.wellBound⟩, fun _ => parts.known nofun, fun _ => parts.good nofun⟩
    exact ⟨here.grow whole.grown, grown, rfl, whole⟩
  · exact places

theorem expandCall (here : o.Orderly aim p p) (held : o.Held aim p.tree function)
    (attached : p.isAttached call = true) :
    Along (o.Orderly aim) p (SimplifyM.expandCall function expression call label) any := by
  have course := Along.course o aim
  refine .program ?_
  split
  · rename_i callee arguments shape
    split
    · have spot : p.Spot aim call := here.spot (by rw [shape]; rfl) (by rw [shape]; rfl)
      have given (argument : NodeId) (member : argument ∈ arguments) :=
        here.source_of_argument attached shape member
      have built : Along (o.Orderly aim) p (SimplifyM.instantiate function arguments)
          (Expansion.Pieces o aim p) := by
        by_cases isNames : aim = .names
        · subst isNames
          exact instantiate_names here held given
        · exact instantiate here isNames held given
      refine .bind course built fun value q leads made => ?_
      obtain ⟨grown, rfl, parts⟩ := made
      have member : value ∈ [value] := List.mem_singleton_self _
      have fits :=
        leads.stay.fits (spot.orderly leads) (parts.assembly.loose value member).allocated
          (fun isOther => parts.isNew isOther member) fun isOther => parts.good isOther value member
      exact .thenReturn course (.recordReplace leads.stay fits)
    · exact .pure here trivial
  · exact .pure here trivial

end SimplifyM.Along

end Unravel
