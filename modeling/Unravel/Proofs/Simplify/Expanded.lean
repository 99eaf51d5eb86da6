import Unravel.Proofs.Simplify.Piece
import Unravel.Proofs.Simplify.Surely

/-!
Programs in which an instance of a template has taken the place of a call (`Program.Expanded`): the
instance stands in the scopes that the call stood in.
-/

namespace Unravel

/-- The expansion of a call of a function. -/
def Program.expansion? (p : Program) (function call : NodeId) : Option Expansion :=
  match p.node call, (((p.node function).function?.map (·.params)).getD []).mapM p.param with
  | .call _ arguments, .ok params => some ⟨params, arguments⟩
  | _, _ => none

namespace Program

variable {p after : Program} {c : Context} {w : Workspace} {e : Expansion}
  {function expression call value : NodeId} {grown : Tree} {label : String}

theorem mapM_of_expansion? (found : p.expansion? function call = some e) :
    (((p.node function).function?.map (·.params)).getD []).mapM p.param = .ok e.params ∧
      ∃ callee, p.node call = .call callee e.arguments := by
  rw [expansion?] at found
  split at found
  · rename_i callee arguments params shape areParams
    cases found
    exact ⟨areParams, callee, shape⟩
  · cases found

theorem exists_of_mem_params (found : p.expansion? function call = some e) {param : Param}
    (member : param ∈ e.params) :
    ∃ f id, p.node function = .function f ∧ id ∈ f.params ∧ p.param id = .ok param := by
  obtain ⟨id, isParam, made⟩ := exists_of_mem_mapM (mapM_of_expansion? found).1 member
  cases shape : p.node function with
  | function f => exact ⟨f, id, rfl, by rwa [shape] at isParam, made⟩
  | _ => rw [shape] at isParam; cases isParam

/-- A program in which an instance of a template has taken the place of a call. -/
structure Expanded (p : Program) (e : Expansion) (expression call value : NodeId) (grown : Tree)
    (after : Program) : Prop where
  steady : p.Steady
  afterSteady : after.Steady
  root : after.root = p.root
  building : p.tree.Building [value] grown
  edited : grown.Edited after.tree call (some value)
  possible : grown.Exchangeable call (some value)
  attached : p.tree.isWithin call p.root = true
  isCall : ∃ callee, p.node call = .call callee e.arguments
  isInstance : e.Instance p p.tree grown (e.paramOf? p) expression value

theorem singleReturn?_of_template? (template : p.template? function = some expression) :
    p.tree.singleReturn? function = some expression := by
  rw [template?, Option.bind_eq_bind, Option.bind_eq_some_iff] at template
  obtain ⟨f, -, template⟩ := template
  rw [Option.bind_eq_bind, Option.bind_eq_some_iff] at template
  obtain ⟨returned, found, template⟩ := template
  split at template
  · cases template
  · rw [found, template]

/-- What replaces a call is not taken apart. -/
theorem Steady.expanded {callee placed : NodeId} (steady : p.Steady)
    (shape : p.node call = .call callee e.arguments) (building : p.tree.Building [value] grown)
    (isInstance : e.Instance p p.tree grown (e.paramOf? p) expression value)
    (replaced : Program.replace { p with tree := grown } call value = .ok (placed, after)) :
    p.Expanded e expression call value grown after := by
  obtain ⟨grownSteady, leads⟩ := steady.grow building
  have free : p.Free call := .of_isPlain steady (by rw [shape]; rfl)
  have freeGrown := free.leads leads
  have loose := building.loose value (List.mem_singleton_self _)
  obtain ⟨isPlaced, result⟩ := Keeps.of_replace grownSteady.sound loose.allocated replaced
  have whole : Program.unwrap { p with tree := grown } call value =
      (value, { p with tree := grown }) := by
    have isCall : Program.node { p with tree := grown } call = .call callee e.arguments :=
      (building.grows.node free.allocated).trans shape
    rw [unwrap, isCall]
    rfl
  rw [whole] at isPlaced result
  subst isPlaced
  have afterSteady :=
    (grownSteady.replace loose.allocated freeGrown.notBinding freeGrown.notDeclaring replaced).1
  refine ⟨steady, afterSteady, result.root, building, result.edited, result.possible, ?_,
    ⟨callee, shape⟩, isInstance⟩
  rw [← (building.grows.alike steady.linked).isWithin steady.linked building.grows.linked
    free.allocated]
  exact result.attached

theorem Steady.exists_expanded (steady : p.Steady)
    (isReturned : p.tree.singleReturn? function = some expression)
    (done : SimplifyM.expandCall function expression call label ⟨p, c⟩ = .ok true w) :
    p.meansSameAt function expression call = true ∧ ∃ e value grown,
      p.expansion? function call = some e ∧ p.Expanded e expression call value grown w.program := by
  have afterSteady : w.program.Steady := by
    have steadily : SimplifyM.Steadily p (SimplifyM.expandCall function expression call label)
        SimplifyM.any :=
      SimplifyM.Runs.expandCall steady
    have result := steadily c
    rw [done] at result
    exact result.1
  rw [SimplifyM.expandCall, SimplifyM.program_bind] at done
  cases shape : p.node call with
  | call callee arguments =>
    simp only [shape] at done
    cases same : p.meansSameAt function expression call with
    | false => simp only [same] at done; cases done
    | true =>
      simp only [same, if_true] at done
      have allocated : ∀ argument ∈ arguments, p.tree.Allocated argument :=
        fun argument member => by
        refine steady.linked.allocated_child call ?_
        rw [show p.tree.node call = .call callee arguments from shape]
        exact List.mem_cons_of_mem _ member
      obtain ⟨value, mid, instantiated, rest⟩ := SimplifyM.exists_of_bind_ok done
      have supplies : SimplifyM.Steadily p (SimplifyM.instantiate function arguments) _ :=
        SimplifyM.Runs.steadily_instantiate steady allocated
      have supplied := supplies c
      rw [instantiated] at supplied
      obtain ⟨grownSteady, -, returned, params, found, areParams, grown, isGrown, building,
        isInstance⟩ :=
          supplied
      rw [isReturned, Option.some.injEq] at found
      subst found
      obtain ⟨⟨⟩, last, recorded, finished⟩ := SimplifyM.exists_of_bind_ok rest
      cases finished
      refine ⟨rfl, ⟨params, arguments⟩, value, grown, ?_, ?_⟩
      · rw [expansion?, shape, areParams]
      · obtain ⟨placed, replaced⟩ :=
          SimplifyM.exists_of_replaceAndRecord (p := mid.program) (c := mid.context) recorded
        rw [isGrown] at replaced
        exact steady.expanded shape building isInstance replaced
  | _ => simp only [shape] at done; cases done

theorem exists_expanded (steady : p.Steady) (template : p.template? function = some expression)
    (done : SimplifyM.expandCall function expression call label ⟨p, c⟩ = .ok true w) :
    p.meansSameAt function expression call = true ∧ ∃ e value grown,
      p.expansion? function call = some e ∧ p.Expanded e expression call value grown w.program :=
  steady.exists_expanded (singleReturn?_of_template? template) done

theorem exists_expandCall (steady : p.Steady) (isExpansion : p.expansion? function call = some e)
    (attached : p.tree.isWithin call p.root = true)
    (found : p.tree.singleReturn? function = some expression)
    (same : p.meansSameAt function expression call = true) (nests : e.Nests p 65 expression)
    (label : String) (c : Context) :
    ∃ w, SimplifyM.expandCall function expression call label ⟨p, c⟩ = .ok true w := by
  obtain ⟨areParams, callee, shape⟩ := mapM_of_expansion? isExpansion
  have allocated : ∀ argument ∈ e.arguments, p.tree.Allocated argument := fun argument member => by
    refine steady.linked.allocated_child call ?_
    rw [show p.tree.node call = _ from shape]
    exact List.mem_cons_of_mem _ member
  have notRoot : call ≠ p.root := by
    obtain ⟨body, isProgram⟩ := steady.sound.rooted.isProgram
    rintro rfl
    rw [shape] at isProgram
    cases isProgram
  rw [SimplifyM.expandCall, SimplifyM.program_bind]
  simp only [shape, same, if_true]
  have supplies : SimplifyM.Surely p (SimplifyM.instantiate function e.arguments) _ :=
    .monoFails
      (.instantiate steady allocated
        fun (_ : True) => ⟨expression, e.params, found, areParams, nests⟩)
        fun _ failed => failed.1 trivial
  have supplied := supplies c
  cases ran : SimplifyM.instantiate function e.arguments ⟨p, c⟩ with
  | error failure mid =>
    rw [ran] at supplied
    exact supplied.2.elim
  | ok value mid =>
    rw [ran] at supplied
    obtain ⟨midSteady, -, -, -, -, -, grown, isGrown, building, -⟩ := supplied
    have possible := steady.replaceable building attached notRoot
    rw [← isGrown] at possible
    have isAllocated : mid.program.tree.Allocated value := by
      rw [isGrown]
      exact (building.loose value (List.mem_singleton_self _)).allocated
    obtain ⟨after, done, -⟩ := Keeps.replace midSteady.sound isAllocated possible
    obtain ⟨c', recorded⟩ := SimplifyM.replaceAndRecord_eq (c := mid.context) .functionInlined
      (label ++ ": ") done
    refine ⟨⟨after, c'⟩, ?_⟩
    rw [SimplifyM.bind_of_ok _ ran, SimplifyM.bind_of_ok _ recorded]
    rfl

namespace Expanded

variable (expanded : p.Expanded e expression call value grown after)

include expanded

theorem loose :
    p.tree.Loose grown value := expanded.building.loose value (List.mem_singleton_self _)

theorem alike : p.tree.Alike grown p.tree.Allocated :=
  expanded.building.grows.alike expanded.steady.linked

theorem allocatedCall : p.tree.Allocated call :=
  expanded.steady.linked.allocated_of_isWithin expanded.attached expanded.steady.isTop.allocated

theorem freeCall : p.Free call := by
  obtain ⟨callee, shape⟩ := expanded.isCall
  exact .of_isPlain expanded.steady (by rw [shape]; rfl)

theorem freeGrown : ¬grown.Binds call := by
  rw [expanded.building.grows.binds_iff expanded.steady.linked expanded.allocatedCall]
  exact expanded.freeCall.notBinding

theorem isTop : grown.IsTop p.root := by
  have top := expanded.building.grows.isTop expanded.steady.isTop.allocated
    expanded.steady.isTop.top
  exact ⟨top.1, top.2⟩

theorem notRoot : some value ≠ some p.root := fun same => expanded.loose.new (by
  rw [Option.some.inj same]
  exact expanded.steady.isTop.allocated)

theorem attachedGrown : grown.isWithin call p.root = true := by
  rw [expanded.alike.isWithin expanded.steady.linked expanded.building.grows.linked
    expanded.allocatedCall, expanded.attached]

/-- The instance is part of the program. -/
theorem attachedAfter : after.tree.isWithin value after.root = true := by
  rw [expanded.root, expanded.edited.isWithin_root_iff expanded.building.grows.linked
    expanded.possible expanded.isTop.top expanded.attachedGrown expanded.notRoot]
  exact .inr (by simp)

theorem place : after.tree.parent? value = p.tree.parent? call := by
  rw [expanded.edited.parent?_new expanded.possible rfl,
    expanded.building.grows.parent? expanded.allocatedCall]

theorem freeAfter : ¬after.tree.Binds value := fun binds =>
  expanded.building.grows.linked.not_binds_of_top expanded.loose.detached
    (expanded.edited.binds (fun _ => expanded.freeGrown) binds)

theorem isInstance_after : e.Instance p p.tree after.tree (e.paramOf? p) expression value := by
  refine expanded.isInstance.keep (fun isOld => isOld) fun id isNew => ?_
  refine ⟨expanded.edited.allocated.mpr isNew.allocated, expanded.edited.kept id fun member => ?_⟩
  -- The call is held by an old node.
  have held := expanded.building.grows.linked.mem_children.mp member
  rw [expanded.building.grows.parent? expanded.allocatedCall] at held
  exact isNew.isNew (expanded.steady.linked.allocated_parent held)

theorem scopes_value : after.tree.scopesAround value = p.tree.scopesAround call ∧
    after.tree.beyond value = p.tree.beyond call := by
  have linked := expanded.steady.linked
  have grownLinked := expanded.building.grows.linked
  have afterLinked := expanded.afterSteady.linked
  obtain ⟨parent, held⟩ := expanded.possible.held
  have stays := expanded.possible.stays_parent grownLinked held
  have heldAfter := expanded.edited.parent?_new expanded.possible rfl
  rw [held] at heldAfter
  have alike := expanded.edited.alike grownLinked expanded.possible
  have around := expanded.alike.scopesAround linked grownLinked expanded.allocatedCall
  have beyond := expanded.alike.beyond linked grownLinked expanded.allocatedCall
  rw [← around, ← beyond, afterLinked.scopesAround_of_parent heldAfter,
    grownLinked.scopesAround_of_parent held, afterLinked.beyond_of_parent heldAfter,
    grownLinked.beyond_of_parent held, alike.scopesFrom grownLinked afterLinked stays,
    alike.beyond grownLinked afterLinked stays, alike.opens stays,
    expanded.edited.holds_new grownLinked expanded.possible]
  exact ⟨rfl, rfl⟩

theorem plainCall (id : NodeId) : call ∉ (p.tree.node id).part .declarators := fun held => by
  have isDeclarator := expanded.steady.wellBound.declarator held
  rw [show (p.tree.node call).isDeclarator = false from expanded.freeCall.notDeclaring]
    at isDeclarator
  cases isDeclarator

theorem plainAfter (id : NodeId) : value ∉ (after.tree.node id).part .declarators := fun held => by
  have sameHold := expanded.edited.holds_new expanded.building.grows.linked expanded.possible
    id .declarators
  rw [Tree.holds, Tree.holds, decide_eq_decide] at sameHold
  have isDeclarator := expanded.building.wellBound.declarator (sameHold.mp held)
  rw [expanded.building.grows.node expanded.allocatedCall,
    show (p.tree.node call).isDeclarator = false from expanded.freeCall.notDeclaring]
    at isDeclarator
  cases isDeclarator

end Expanded

end Program

end Unravel
