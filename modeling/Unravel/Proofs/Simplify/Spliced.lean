import Unravel.Proofs.Program.Reissued
import Unravel.Proofs.Simplify.Swept
import Unravel.Proofs.Simplify.Through

/-!
What the expansion of a call leaves alone. While the expression of a function is instantiated, the
store only grows (`Program.Extended`), so that a failure leaves no trace in the program
(`Program.Undisturbed`). Where the expression is put into the place of the call, it is made of new
nodes and everything around it stays (`Program.Spliced`).
-/

namespace Unravel

open SimplifyM

namespace Program

variable {p q : Program} {grown : Tree} {id target placed : NodeId}

/-- The program is what it was: its nodes, their places and its table. -/
structure Undisturbed (p q : Program) : Prop where
  root : q.root = p.root
  scopes : q.scopes = p.scopes
  stale : q.stale = p.stale
  attached : ∀ id, q.isAttached id = p.isAttached id
  node : ∀ {id}, p.isAttached id = true → q.node id = p.node id
  parent? : ∀ {id}, p.isAttached id = true → q.tree.parent? id = p.tree.parent? id

/-- New nodes stand in the place of a node, and everything else of the program is what it was. -/
structure Spliced (p : Program) (target placed : NodeId) (q : Program) : Prop where
  root : q.root = p.root
  attached : ∀ id, q.isAttached id = true ↔
    p.isAttached id = true ∧ p.tree.isWithin id target = false ∨ q.tree.isWithin id placed = true
  isNew : ∀ {id}, q.tree.isWithin id placed = true → ¬p.tree.Allocated id
  place : q.tree.parent? placed = p.tree.parent? target
  node : ∀ {id}, p.isAttached id = true → p.tree.isWithin id target = false →
    q.node id = (p.node id).map (Node.exchange target placed)
  parent? : ∀ {id}, p.isAttached id = true → p.tree.isWithin id target = false →
    q.tree.parent? id = p.tree.parent? id

def Extended (p q : Program) : Prop := ∃ grown, q = { p with tree := grown } ∧ p.tree.Grows grown

def Extra (p : Program) (piece : NodeId) (q : Program) : Prop :=
  ∃ grown, q = { p with tree := grown } ∧ p.tree.Assembly [piece] grown

theorem Extended.refl (linked : p.tree.Linked) : p.Extended p := ⟨_, rfl, .refl linked⟩

theorem Extended.trans {after : Program} (first : p.Extended q) (second : q.Extended after) :
    p.Extended after := by
  obtain ⟨_, rfl, grows⟩ := first
  obtain ⟨_, rfl, further⟩ := second
  exact ⟨_, rfl, grows.trans further⟩

theorem Extra.extended {piece : NodeId} (extra : p.Extra piece q) : p.Extended q :=
  extra.imp fun _ made => ⟨made.1, made.2.grows⟩

theorem Extended.undisturbed (rooted : p.Rooted) (extended : p.Extended q) : p.Undisturbed q := by
  obtain ⟨grown, rfl, grows⟩ := extended
  have unchanged := grows.unchanged rooted.linked rooted.isTop
  have sameRoot := (rooted.grow grows).isTop.top
  refine ⟨rfl, rfl, rfl, fun id => ?_,
    fun attached => grows.node (rooted.allocated_of_isAttached attached),
    fun attached => grows.parent? (rooted.allocated_of_isAttached attached)⟩
  rw [isAttached_eq grows.linked sameRoot, isAttached_eq rooted.linked rooted.isTop.top]
  exact unchanged.isWithin_root rooted.linked grows.linked rooted.isTop.top

theorem Rooted.spliced (rooted : p.Rooted) {piece : NodeId} {after : Program}
    (extra : p.Extra piece q) (allocated : p.tree.Allocated target)
    (notStatement : (p.node target).isStatement = false)
    (done : q.replace target piece = .ok (placed, after)) : p.Spliced target placed after := by
  obtain ⟨grown, rfl, assembly⟩ := extra
  have grows := assembly.grows
  have loose := assembly.loose piece (List.mem_singleton_self _)
  have linked := rooted.linked
  have grownRooted := rooted.grow grows
  obtain ⟨replaceable, isPlaced, attaches⟩ := replace_eq_ok_iff.mp done
  have staging := grownRooted.staging loose.allocated replaceable
  obtain ⟨afterTree, afterRoot⟩ := eq_of_fixReferences attaches
  have sameNode := grows.node allocated
  rw [unwrap_of_not_statement (by rw [Program.node, sameNode]; exact notStatement)]
    at isPlaced staging
  have root : after.root = p.root := afterRoot.trans staging.root
  have edited : grown.Edited after.tree target (some piece) := afterTree ▸ staging.edited
  have possible : grown.Exchangeable target (some piece) := staging.possible
  have tree : after.tree = grown.replace target piece := by
    rw [afterTree, staged,
      unwrap_of_not_statement (by rw [Program.node, sameNode]; exact notStatement)]
    rfl
  obtain ⟨parent, held⟩ := possible.held
  subst isPlaced
  have inside {id : NodeId} (attached : p.isAttached id = true) : p.tree.Allocated id :=
    rooted.allocated_of_isAttached attached
  have below (id : NodeId) : after.tree.isWithin id placed = grown.isWithin id placed :=
    edited.isWithin_new grows.linked possible rfl
  have afterTop : after.tree.parent? after.root = none := by
    have afterRooted := staging.rooted.congr afterTree afterRoot
    exact afterRooted.rooted.isTop.top
  have sameRoot (id : NodeId) : grown.isWithin id p.root = p.tree.isWithin id p.root :=
    (grows.unchanged linked rooted.isTop).isWithin_root linked grows.linked rooted.isTop.top
  have same {id : NodeId} (isAllocated : p.tree.Allocated id) :
      grown.isWithin id target = p.tree.isWithin id target :=
    (grows.alike linked).isWithin linked grows.linked isAllocated target
  refine ⟨root, fun id => ?_, fun {id} within isAllocated => ?_, ?_,
    fun {id} attached outside => ?_, fun {id} attached outside => ?_⟩
  · rw [isAttached_eq (afterTree ▸ staging.rooted.linked) afterTop, root,
      edited.isWithin_root_iff grows.linked possible grownRooted.isTop.top staging.attached
        staging.notRoot, Tree.isIncoming_some, below, isAttached_eq linked rooted.isTop.top,
        sameRoot]
    refine or_congr_left (and_congr_right fun attached => ?_)
    rw [same (linked.allocated_of_isWithin attached rooted.isTop.allocated)]
  · rw [below, grows.not_isWithin_new linked isAllocated loose.new] at within
    cases within
  · rw [edited.parent?_new possible rfl, grows.parent? allocated]
  · rw [Program.node, tree, Tree.node_replace grows.linked held, grows.node (inside attached)]
    rfl
  · rw [edited.parent?_of_ne, grows.parent? (inside attached)]
    · rintro rfl
      rw [Tree.isWithin_self] at outside
      cases outside
    · intro isPiece
      exact loose.new (Option.some.inj isPiece ▸ inside attached)

end Program

open Program

theorem route_extended (p : Program) :
    Route (fun _ v => p.Extended v.program) fun _ v => p.Extended v.program :=
  ⟨fun made => made, fun _ made => made, fun _ made => made⟩

namespace Expansion

variable {e : Expansion} {p q : Program} {c : Context} {w : Workspace}
  {expression copy root value : NodeId} {grown : Tree}

/-- An action that leaves a program as it is but for its store, in which it makes a piece. -/
abbrev Makes (p : Program) (w : Workspace) (action : SimplifyM NodeId) : Prop :=
  Through (fun _ v => p.Extended v.program) (fun _ v => p.Extended v.program) w action
    fun piece v =>
      p.Extra piece v.program

theorem Makes.since {action : SimplifyM NodeId} (extended : p.Extended q)
    (makes : Makes q w action) :
    Through (fun _ v => p.Extended v.program) (fun _ v => p.Extended v.program) w action
      fun piece v =>
        q.Extra piece v.program :=
  .imp makes extended.trans extended.trans

theorem makes_build {action : StateM Tree NodeId} (linked : p.tree.Linked)
    (nonempty : p.tree.size ≠ 0) (yields : Tree.Yields p.tree.Assembly [] Tree.piece action) :
    Makes p ⟨p, c⟩ (build action) := by
  have assembly := yields.turns p.tree (.start linked nonempty)
  exact .edit (.refl linked) fun piece q done => by
    cases done
    exact ⟨⟨_, rfl, assembly.grows⟩, _, rfl, assembly⟩

theorem makes_fill (linked : p.tree.Linked) (assembly : p.tree.Assembly [root] grown)
    (isNew : ¬p.tree.Allocated copy) (allocated : grown.Allocated copy)
    (made : Extra { p with tree := grown } value w.program) :
    Through (fun _ v => p.Extended v.program) (fun _ v => p.Extended v.program) w
      (if copy = root then return value
        else do
          SimplifyM.build (modify fun t => t.replace copy value)
          return root) fun root v => p.Extra root v.program ∧ grown.size ≤ v.program.tree.size := by
  obtain ⟨program, context⟩ := w
  obtain ⟨filled, rfl, further⟩ := made
  have both := assembly.trans further
  have size : filled.size ≤ (filled.replace copy value).size :=
    Nat.le_of_eq (Tree.size_replace ..).symm
  split
  · exact .pure ⟨_, rfl, both.grows⟩ ⟨⟨_, rfl, both.mono (by simp)⟩, further.grows.size⟩
  · have spliced : p.tree.Assembly [root] (filled.replace copy value) := by
      cases held : filled.parent? copy with
      | none =>
        rw [Tree.replace, held]
        exact both.mono (by simp)
      | some parent =>
        exact (both.splice linked held isNew
          (further.grows.not_isWithin_new assembly.grows.linked allocated
            (further.loose value (List.mem_singleton_self _)).new)).2
    refine .bind (route_extended p)
      (show Through _ _ _ _ fun _ v => v.program = { p with tree := filled.replace copy value } from
        .edit ⟨_, rfl, both.grows⟩ fun _ q done => ?_) fun _ v _ same => ?_
    · cases done
      exact ⟨⟨_, rfl, spliced.grows⟩, rfl⟩
    · rw [show v = ⟨v.program, v.context⟩ from rfl, same]
      exact .pure ⟨_, rfl, spliced.grows⟩ ⟨⟨_, rfl, spliced⟩, Nat.le_trans further.grows.size size⟩

theorem Parts.grow (parts : e.Parts p) (grows : p.tree.Grows grown) :
    e.Parts { p with tree := grown } where
  arguments argument given := grows.allocated (parts.arguments argument given)
  defaults param member default form := grows.allocated (parts.defaults param member default form)

/-- A copy of an expression with values in the places of its uses is a new piece, and where it
cannot be made, there are new nodes at most. -/
theorem makes_expand (linked : p.tree.Linked) (nonempty : p.tree.size ≠ 0)
    (parts : e.Parts p) (limit : Nat) (allocated : p.tree.Allocated expression) :
    Makes p ⟨p, c⟩ (e.expand limit expression) := by
  induction limit generalizing expression p c with
  | zero => exact .throw (.refl linked)
  | succ limit induction =>
    have route := route_extended p
    obtain ⟨copied, isRoot⟩ := linked.copied nonempty expression
    have start := (Tree.Assembly.start linked nonempty).copy expression
    rw [expand]
    refine .program (.bind route
      (show Through _ _ _ _ fun a v => a = (Tree.copyMapped expression p.tree).1 ∧
          v.program = { p with tree := (Tree.copyMapped expression p.tree).2 } from
        .edit (.refl linked) fun a q done => ?_) fun a v _ made => ?_)
    · cases done
      exact ⟨⟨_, rfl, start.grows⟩, rfl, rfl⟩
    obtain ⟨rfl, same⟩ := made
    dsimp only
    have here : p.Extended v.program := same ▸ ⟨_, rfl, start.grows⟩
    have built : p.Extra (Tree.copyMapped expression p.tree).1.1 v.program := same ▸ ⟨_, rfl, start⟩
    have size : (Tree.copyMapped expression p.tree).2.size ≤ v.program.tree.size :=
      same ▸ Nat.le_refl _
    refine .mono
      (show Through _ _ _ _ fun root v => p.Extra root v.program ∧
          (Tree.copyMapped expression p.tree).2.size ≤ v.program.tree.size from
        .foldlM route here ⟨built, size⟩ ?_) fun root v _ filled => filled.1
    rintro ⟨id, param, index⟩ isUse root ⟨_, context⟩ - ⟨⟨grown, rfl, assembly⟩, size⟩
    obtain ⟨inside, isUse⟩ := (mem_uses linked ⟨rfl, .refl linked⟩ allocated).mp isUse
    obtain ⟨isNew, isCopy⟩ := copied.new id inside
    have extended : p.Extended { p with tree := grown } := ⟨_, rfl, assembly.grows⟩
    have growsLinked : Tree.Linked grown := assembly.grows.linked
    have more := parts.grow assembly.grows
    -- Whatever the value of the use is, it comes into its place.
    have place (value : NodeId) (v : Workspace) (_ : p.Extended v.program)
        (made : Extra { p with tree := grown } value v.program) :=
      (makes_fill linked assembly isNew (Nat.lt_of_lt_of_le isCopy size) made).mono
        fun root v _ filled =>
          (⟨filled.1, Nat.le_trans size filled.2⟩ : p.Extra root v.program ∧
            (Tree.copyMapped expression p.tree).2.size ≤ v.program.tree.size)
    have piece {action : StateM Tree NodeId}
        (yields : Tree.Yields grown.Assembly [] Tree.piece action) :=
      (makes_build (p := { p with tree := grown }) (c := context) growsLinked assembly.nonempty
        yields).since extended
    have defaulted {default : NodeId} (form : param.form = .defaulted default) :=
      (induction (c := context) (p := { p with tree := grown }) growsLinked assembly.nonempty more
        (more.defaults param (mem_params_of_paramOf? isUse) default form)).since extended
    have shop := Tree.workshop_assembly grown
    split
    · exact .bind route (piece (Tree.yields_copy_assembly _)) place
    · exact .bind route (piece (shop.identifier "undefined")) place
    · refine .bind route (piece ?_) place
      exact .bind (shop.mapM _ fun argument _ => Tree.yields_copy_assembly argument) fun elements =>
        shop.alloc (.array elements) rfl
    · rename_i form _
      exact .bind route (defaulted form) place
    · rename_i form _
      refine .program ?_
      split
      · exact .bind route (defaulted form) place
      · exact .bind route (piece (Tree.yields_copy_assembly _)) place

end Expansion

namespace SimplifyM

variable {p : Program} {c : Context} {function expression call : NodeId} {arguments : List NodeId}
  {label : String}

theorem makes_instantiate (rooted : p.Rooted)
    (given : ∀ argument ∈ arguments, p.tree.Allocated argument) :
    Expansion.Makes p ⟨p, c⟩ (instantiate function arguments) := by
  have linked := rooted.linked
  refine .program ?_
  split
  · exact .throw (.refl linked)
  · rename_i expression found
    refine .bind (route_extended p)
      (show Through _ _ _ _ fun params v => v = ⟨p, c⟩ ∧
          (((p.node function).function?.map (·.params)).getD []).mapM p.param = .ok params from
        .edit (.refl linked) fun params q done => ?_) fun params v _ made => ?_
    · cases made : (((p.node function).function?.map (·.params)).getD []).mapM p.param with
      | error e =>
        rw [made] at done
        cases done
      | ok params =>
        rw [made] at done
        cases done
        exact ⟨.refl linked, rfl, rfl⟩
    · obtain ⟨rfl, made⟩ := made
      refine Expansion.makes_expand linked rooted.nonempty
        ⟨given, fun param member default form => ?_⟩ 65 (linked.allocated_of_singleReturn? found)
      obtain ⟨id, -, isParam⟩ := exists_of_mem_mapM made member
      exact Tree.allocated_of_parent? (parent?_of_param linked isParam form)

theorem through_place (rooted : p.Rooted) {w : Workspace} {piece : NodeId} {kind : EventKind}
    (extra : p.Extra piece w.program) (allocated : p.tree.Allocated call)
    (notStatement : (p.node call).isStatement = false) :
    Through (fun _ _ => True) (fun _ v => p.Undisturbed v.program) w
      (replaceAndRecord kind label call piece)
        fun _ v => ∃ placed, p.Spliced call placed v.program := by
  have route : Route (fun _ _ => True) fun _ v => p.Undisturbed v.program :=
    ⟨fun _ => trivial, fun _ _ => trivial, fun _ fails => fails⟩
  refine .snippet fun _ => .bind route
    (show Through _ _ _ _ fun placed v => p.Spliced call placed v.program from
      .edit (extra.extended.undisturbed rooted) fun placed q done => ⟨trivial, ?_⟩)
      fun placed v _ spliced => ?_
  · exact rooted.spliced extra allocated notStatement done
  · exact .snippet fun _ => ⟨trivial, placed, spliced⟩

/-- Where a call is not expanded, whether that fails or the names forbid it, the program is what it
was. Where it is expanded, new nodes stand in its place and everything else is what it was. -/
theorem spliced_or_undisturbed (rooted : p.Rooted) (function expression call : NodeId)
    (label : String) (c : Context) :
    match expandCall function expression call label ⟨p, c⟩ with
    | .ok true w => ∃ placed, p.Spliced call placed w.program
    | .ok false w | .error _ w => p.Undisturbed w.program := by
  have unchanged : p.Undisturbed p := Extended.undisturbed rooted (.refl rooted.linked)
  have route : Route (fun _ _ => True) fun _ v => p.Undisturbed v.program :=
    ⟨fun _ => trivial, fun _ _ => trivial, fun _ fails => fails⟩
  have runs : Through (fun _ _ => True) (fun _ v => p.Undisturbed v.program) ⟨p, c⟩
      (expandCall function expression call label) fun answer v =>
        if answer then ∃ placed, p.Spliced call placed v.program else p.Undisturbed v.program := by
    refine .program ?_
    split
    · rename_i callee arguments shape
      split
      · have allocated : p.tree.Allocated call := Tree.allocated_of_node_ne (by
          rw [show p.tree.node call = _ from shape]
          exact nofun)
        have given : ∀ argument ∈ arguments, p.tree.Allocated argument := fun argument member => by
          refine rooted.linked.allocated_child call ?_
          rw [show p.tree.node call = _ from shape]
          exact List.mem_cons_of_mem _ member
        have made : Through (fun _ _ => True) (fun _ v => p.Undisturbed v.program) ⟨p, c⟩
            (instantiate function arguments) fun piece v => p.Extra piece v.program :=
          .imp (makes_instantiate rooted given) (fun _ => trivial)
            fun extended => extended.undisturbed rooted
        refine .bind route made fun piece v _ extra => .bind route
          (through_place rooted extra allocated (by rw [shape]; rfl)) fun _ v _ spliced => ?_
        exact .pure trivial spliced
      · exact .pure trivial unchanged
    · exact .pure trivial unchanged
  rw [Through] at runs
  split <;> rename_i ran <;> rw [ran] at runs
  · exact runs.2
  · exact runs.2
  · exact runs

/-- The tree of `function f([x]) { return x; } f(y);`. -/
def refused : Tree :=
  ⟨#[⟨.identifier "f", some ⟨6⟩⟩, ⟨.identifier "x", some ⟨2⟩⟩, ⟨.arrayPattern [⟨1⟩], some ⟨6⟩⟩,
    ⟨.identifier "x", some ⟨4⟩⟩, ⟨.return_ (some ⟨3⟩), some ⟨5⟩⟩, ⟨.block [⟨4⟩], some ⟨6⟩⟩,
    ⟨.function ⟨.declaration, some ⟨0⟩, [⟨2⟩], ⟨5⟩, false, false⟩, some ⟨11⟩⟩,
    ⟨.identifier "f", some ⟨9⟩⟩, ⟨.identifier "y", some ⟨9⟩⟩, ⟨.call ⟨7⟩ [⟨8⟩], some ⟨10⟩⟩,
    ⟨.expressionStatement ⟨9⟩, some ⟨11⟩⟩, ⟨.program [⟨6⟩, ⟨10⟩], none⟩]⟩

/-- The parameter of `refused` is a pattern that cannot be instantiated. -/
theorem exists_error_refused :
    ∃ p w, Program.ofTree refused ⟨11⟩ = .ok p ∧ p.Steady ∧ p.isAttached ⟨9⟩ = true ∧
      expandCall ⟨6⟩ ⟨3⟩ ⟨9⟩ "f" ⟨p, default⟩ = .error (.parameterKind "ArrayPattern") w := by
  have linked : refused.Linked := Tree.linked_of_checks (by decide)
  have isTop : refused.IsTop ⟨11⟩ := ⟨by decide, by decide⟩
  obtain ⟨scopes, made, steady⟩ := Program.exists_steady refused ⟨11⟩ linked isTop
    (Tree.wellBound_of_bindsWell (by decide)) rfl
  have means : (refused.lexicon ⟨11⟩).meaning? ⟨3⟩ = some ⟨⟨6⟩, "x", .param, ⟨6⟩, ⟨1⟩⟩ := by decide
  set p : Program := ⟨refused, ⟨11⟩, scopes, false⟩ with isProgram
  obtain ⟨binding, belongs, stands⟩ := steady.sound.exists_of_meaning? means
  have isOwn : p.isTemplateOwn ⟨6⟩ ⟨3⟩ binding = true := by
    rw [Program.isTemplateOwn, show (p.binding binding).declaration = ⟨6⟩ from stands.declaration,
      show (p.binding binding).kind = .param from stands.kind]
    rfl
  have same : p.meansSameAt ⟨6⟩ ⟨3⟩ ⟨9⟩ = true := by
    have atUse : p.meansSameAt ⟨6⟩ ⟨3⟩ ⟨9⟩ = (((p.bindingOf? ⟨3⟩).any (p.isTemplateOwn ⟨6⟩ ⟨3⟩) ||
        p.resolve? ⟨9⟩ "x" = p.bindingOf? ⟨3⟩) && true) := rfl
    rw [atUse, belongs, Option.any_some, isOwn]
    rfl
  have isCall : p.node ⟨9⟩ = .call ⟨7⟩ [⟨8⟩] := rfl
  refine ⟨p, ⟨p, default⟩, made, steady, rfl, ?_⟩
  rw [expandCall, program_bind]
  simp only [isCall, same, if_true]
  rfl

/-- The call `f(y)` of `function f(x) { return x; }` is expanded to a copy of its argument. Where
the parameter is a pattern, this fails and the program is what it was. -/
theorem exists_spliced :
    (∃ p w placed, Program.ofTree (Program.applied "y") ⟨12⟩ = .ok p ∧ p.Rooted ∧
      p.isAttached ⟨8⟩ = true ∧
      expandCall ⟨5⟩ ⟨2⟩ ⟨8⟩ "f" ⟨p, default⟩ = .ok true w ∧ p.Spliced ⟨8⟩ placed w.program) ∧
    ∃ p w, Program.ofTree refused ⟨11⟩ = .ok p ∧ p.Rooted ∧ p.isAttached ⟨9⟩ = true ∧
      expandCall ⟨6⟩ ⟨3⟩ ⟨9⟩ "f" ⟨p, default⟩ = .error (.parameterKind "ArrayPattern") w ∧
        p.Undisturbed w.program := by
  constructor
  · obtain ⟨p, binding, param, made, steady, -, isTree, isRoot, -, -, plan, same, isExpansion⟩ :=
      Program.exists_planned_applied (.inr rfl)
    have found : p.tree.singleReturn? ⟨5⟩ = some ⟨2⟩ := by rw [isTree]; rfl
    have attached : p.isAttached ⟨8⟩ = true := by rw [Program.isAttached, isTree, isRoot]; rfl
    obtain ⟨w, ran⟩ := Program.exists_expandCall steady isExpansion
      (by rwa [isAttached_eq steady.linked steady.isTop.top] at attached) found same
      (Expansion.nests_of_plain (by simp) 64 _) "f" default
    have cases_ := spliced_or_undisturbed steady.sound.rooted ⟨5⟩ ⟨2⟩ ⟨8⟩ "f" default
    rw [ran] at cases_
    obtain ⟨placed, spliced⟩ := cases_
    exact ⟨p, w, placed, made, steady.sound.rooted, attached, ran, spliced⟩
  · obtain ⟨p, w, made, steady, attached, failed⟩ := exists_error_refused
    have cases_ := spliced_or_undisturbed steady.sound.rooted ⟨6⟩ ⟨3⟩ ⟨9⟩ "f" default
    rw [failed] at cases_
    exact ⟨p, w, made, steady.sound.rooted, attached, failed, cases_⟩

end SimplifyM

end Unravel
