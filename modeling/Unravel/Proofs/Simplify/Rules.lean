import Unravel.Proofs.Simplify.Planned
import Unravel.Proofs.Simplify.Steadily
import Unravel.Proofs.Simplify.Template
import Unravel.Simplify.Alias
import Unravel.Simplify.Decoder
import Unravel.Simplify.Escapes
import Unravel.Simplify.FlatLoop
import Unravel.Simplify.Folding
import Unravel.Simplify.Marshal
import Unravel.Simplify.Rule

/-!
Every rule that expands no calls leaves a program steady: what it replaces is either no identifier
or pattern, a use of a name, or stands where no name is declared.

Simplification keeps the table of a program: whatever rules have been applied to it, with whatever
results, its table agrees with a fresh one (`Rule.agrees_after_runs`).
-/

namespace Unravel

open SimplifyM

variable {p : Program}

/-! ### Expressions and statements -/

theorem Escapes.steadily_step (id : NodeId) (steady : p.Steady) :
    Steadily p (Escapes.step id) any := by
  refine .program ?_
  split
  · exact .pure steady trivial
  · rename_i value decoded planned
    have free : p.Free id := by
      refine .of_isPlain steady ?_
      cases shape : p.node id <;> simp_all [Escapes.plan?, Node.isPlain]
    refine .exchange steady (Tree.makes_stringLiteral value) free
      fun literal r steady free allocated => ?_
    split
    · exact .bind (.replaceAndRecord steady free allocated)
        fun _ _ steady _ _ => .pure steady trivial
    · exact .bind (.discardReplace steady free allocated) fun _ _ steady _ _ => .pure steady trivial

theorem Escapes.steadily (steady : p.Steady) : Steadily p Escapes.run any :=
  .nodesWhere fun _ _ => .anyChange steady fun id _ _ steady _ => Escapes.steadily_step id steady

theorem Folding.steadily (steady : p.Steady) : Steadily p Folding.run any := by
  refine .visit steady fun id q steadyAfter leads isCandidate => .program ?_
  have free : p.Free id := by
    refine .of_isPlain steady ?_
    cases shape : p.node id <;> simp_all [Folding.isCandidate, Node.isPlain]
  split
  · exact .pure steadyAfter trivial
  · rename_i value planned
    refine .exchange steadyAfter (Tree.makes_encode value) (free.leads leads)
      fun folded r steady free allocated => .program ?_
    split
    · exact .pure steady trivial
    · exact .bind (.replaceAndRecord steady free allocated)
        fun _ _ steady _ _ => .pure steady trivial

theorem Branch.steadily (steady : p.Steady) : Steadily p Branch.run any := by
  refine .visit steady fun id q steadyAfter leads isCandidate => .program ?_
  have free : p.Free id := by
    refine .of_isPlain steady ?_
    cases shape : p.node id <;> simp_all [Branch.isCandidate, Node.isPlain]
  split
  · exact .pure steadyAfter trivial
  · rename_i plan planned
    refine .snippet fun test => ?_
    have recorded {r : Program} (steady : r.Steady) (message : String) :
        Steadily r (do record .branchPruned id message; return true) any :=
      .bind (.record _ _ _ steady) fun _ _ steady _ _ => .pure steady trivial
    split
    · rename_i branch _
      refine .exchange steadyAfter (Tree.makes_copy branch) (free.leads leads)
        fun copy r steady free allocated => ?_
      exact .bind (.discardReplace steady free allocated) fun _ _ steady _ _ => recorded steady _
    · exact .bind (.remove steadyAfter) fun _ _ steady _ _ => recorded steady _

theorem FlatLoop.steadily (steady : p.Steady) : Steadily p FlatLoop.run any := by
  refine .visit steady fun loop q steadyAfter leads isLoop => .program ?_
  have free : p.Free loop := by
    refine .of_isPlain steady ?_
    cases shape : p.node loop <;> simp_all [FlatLoop.isLoop, Node.isPlain]
  split
  · exact .pure steadyAfter trivial
  · rename_i statements count planned
    have makes : Tree.Makes [] Tree.piece
        (do Tree.alloc (.block (← statements.mapM Tree.copy)) : StateM Tree NodeId) :=
      .bind (.mapM statements fun statement _ => Tree.makes_copy statement) fun body =>
        Tree.makes_alloc (.block body) (by simp [Node.part])
    refine .exchange steadyAfter makes (free.leads leads) fun block r steady free allocated => ?_
    exact .bind (.replace steady free allocated) fun placed _ steady _ _ =>
      .bind (.record _ _ _ steady) fun _ _ steady _ _ => .pure steady trivial

theorem DottedCall.steadily (steady : p.Steady) : Steadily p DottedCall.run any := by
  refine .visit steady fun call q steady _ _ => .program ?_
  split
  · exact .pure steady trivial
  · rename_i callee base name planned
    have free : q.Free callee := by
      obtain ⟨key, arguments, -, shape, -⟩ := DottedCall.of_plan? planned
      exact .of_isPlain steady (by rw [shape]; rfl)
    have makes : Tree.Makes [] Tree.piece
        (do Tree.dotMember (← Tree.copy base) name : StateM Tree NodeId) :=
      .bind (Tree.makes_copy base) fun copy => Tree.makes_dotMember copy name
    refine .exchange steady makes free fun member r steady free allocated => ?_
    exact .bind (.replaceAndRecord steady free allocated) fun _ _ steady _ _ => .pure steady trivial

theorem Proxy.makes_applied (proxy : OperatorProxy) (first second : NodeId) :
    Tree.Makes [] Tree.piece (Proxy.applied proxy first second) := by
  refine .bind (Tree.makes_copy first) fun first =>
    .bind ((Tree.makes_copy second).frame (Tree.piece first)) fun second => ?_
  split
  · exact Tree.makes_alloc (.binary proxy.operator second first) (by simp [Node.part])
  · exact (Tree.makes_alloc (.binary proxy.operator first second) (by simp [Node.part])).perm
      (.swap first second [])

theorem Proxy.steadily (steady : p.Steady) : Steadily p Proxy.run any := by
  refine .program (.bindAny (fun _ => ⟨steady, .refl p, trivial⟩) fun _ q steady _ => ?_)
  refine .bindAny (.visit steady fun call r steadyAfter leads isCall => .program (.context ?_))
    fun expanded q steady _ => .bindAny (.anyChange steady ?_)
      fun removed _ steady _ => .pure steady trivial
  · intro c
    have free : q.Free call := by
      refine .of_isPlain steady ?_
      cases shape : q.node call <;> simp_all [Proxy.isCall, Node.isPlain]
    split
    · exact .pure steadyAfter trivial
    · rename_i proxy first second found
      refine .exchange steadyAfter (Proxy.makes_applied proxy first second) (free.leads leads)
        fun operation r steady free allocated => ?_
      exact .bind (.replaceAndRecord steady free allocated)
        fun _ _ steady _ _ => .pure steady trivial
  · intro d _ q steady _
    refine .program (.context fun c => ?_)
    split
    · refine .snippet fun text => .bind (.remove steady) fun _ _ steady _ _ => ?_
      exact .bind (.record _ _ _ steady) fun _ _ steady _ _ => .pure steady trivial
    · exact .pure steady trivial

/-! ### Uses of names -/

theorem ConstantUse.steadily (steady : p.Steady) : Steadily p ConstantUse.run any := by
  refine .visit steady fun declarator q steady _ _ => .program (.context fun c => ?_)
  split
  · exact .pure steady trivial
  · rename_i plan planned
    have free : ∀ use ∈ plan.uses, q.Free use := by
      obtain ⟨binding, -, belongs, -, isUses, -⟩ := ConstantUse.of_plan? planned
      exact fun use member => steady.sound.free_of_reference belongs (isUses ▸ member)
    refine .snippet fun value => .snippet fun name => ?_
    refine .bind (.forIn (fun _ => True) steady trivial fun use member r steadyAfter leads _ => ?_)
      fun _ r steady _ _ => ?_
    · refine .exchange steadyAfter (Tree.makes_copy plan.init) ((free use member).leads leads)
        fun copy r steady free allocated => ?_
      exact .bind (.discardReplace steady free allocated)
        fun _ _ steady _ _ => .pure steady ⟨rfl, trivial⟩
    · refine .bind (.remove steady) fun _ _ steady _ _ => ?_
      exact .bind (.record _ _ _ steady) fun _ _ steady _ _ => .pure steady trivial

theorem Alias.steadily_collapseAt {sites : List NodeId} (steady : p.Steady)
    (free : ∀ site ∈ sites, p.Free site) : Steadily p (Alias.collapseAt sites) any := by
  refine .program (.anyChange steady fun site member q steadyAfter leads => ?_)
  refine .ifAttached steadyAfter fun _ => .program ?_
  split
  · exact .pure steadyAfter trivial
  · rename_i name target
    refine .exchange steadyAfter (Tree.makes_identifier name) ((free site member).leads leads)
      fun identifier r steady free allocated => ?_
    exact .bind (.replace steady free allocated) fun placed _ steady _ _ =>
      .bind (.record _ _ _ steady) fun _ _ steady _ _ => .pure steady trivial

theorem Alias.free_of_namedInit? {id init : NodeId} (steady : p.Steady)
    (named : Alias.namedInit? p id = some init) :
    (p.node init).isIdentifier = true ∧ p.Free init := by
  unfold Alias.namedInit? at named
  split at named
  · rename_i target init shape
    rw [Option.ite_none_right_eq_some, Option.some.injEq] at named
    obtain ⟨isIdentifier, rfl⟩ := named
    have children : (p.tree.node id).children = [target, init] := by
      rw [show p.tree.node id = .variableDeclarator target (some init) from shape]
      rfl
    have distinct := steady.linked.nodup_children id
    rw [children] at distinct
    have above : p.tree.parent? init = some id := by
      rw [← steady.linked.mem_children, children]
      simp
    refine ⟨isIdentifier, .of_identifier isIdentifier (steady.linked.not_binds_of_parent above ?_)⟩
    rw [show p.tree.node id = .variableDeclarator target (some init) from shape]
    simp only [List.nodup_cons, List.mem_singleton] at distinct
    simp [Node.part, Ne.symm distinct.1]
  · cases named

theorem Alias.free_of_isUseSite {site : NodeId} (steady : p.Steady)
    (isSite : Alias.isUseSite p site = true) :
    (p.node site).isIdentifier = true ∧ p.Free site := by
  rw [Alias.isUseSite, Bool.and_eq_true] at isSite
  obtain ⟨isIdentifier, position⟩ := isSite
  refine ⟨isIdentifier, ?_⟩
  split at position
  · rename_i callee arguments above
    obtain ⟨parent, held, shape⟩ := Option.map_eq_some_iff.mp above
    refine .of_identifier isIdentifier (steady.linked.not_binds_of_parent held ?_)
    rw [show p.tree.node parent = .call callee arguments from shape]
    simp [Node.part]
  · rename_i base key computed above
    obtain ⟨parent, held, shape⟩ := Option.map_eq_some_iff.mp above
    refine .of_identifier isIdentifier (steady.linked.not_binds_of_parent held ?_)
    rw [show p.tree.node parent = .member base key computed from shape]
    simp [Node.part]
  · cases position

theorem Alias.steadily_initializers (steady : p.Steady) : Steadily p Alias.runInitializers any := by
  refine .program (Alias.steadily_collapseAt steady fun init member => ?_)
  obtain ⟨id, -, named⟩ := List.mem_filterMap.mp member
  exact (Alias.free_of_namedInit? steady named).2

theorem Alias.steadily_uses (steady : p.Steady) : Steadily p Alias.runUses any :=
  .nodesWhere fun _ passed => Alias.steadily_collapseAt steady fun site member =>
    (Alias.free_of_isUseSite steady (passed site member)).2

theorem ArrayRead.free_of_mem_plan {c : Context} {binding : BindingId} {member element : NodeId}
    (steady : p.Steady) (planned : (member, element) ∈ ArrayRead.plan p c binding) :
    p.Free member := by
  obtain ⟨_, _, _, base, key, computed, -, -, -, -, shape⟩ := ArrayRead.of_mem_plan planned
  exact .of_isPlain steady (by rw [shape]; rfl)

theorem ArrayRead.steadily (steady : p.Steady) : Steadily p ArrayRead.run any := by
  refine .visit steady fun declarator q steady _ _ => .program ?_
  split
  · split
    · exact .pure steady trivial
    · rename_i binding belongs
      refine .context fun c => .anyChange steady fun pair planned r steadyAfter leads => ?_
      have free := ArrayRead.free_of_mem_plan steady planned
      refine .ifAttached steadyAfter fun _ => ?_
      refine .exchange steadyAfter (Tree.makes_copy pair.2) (free.leads leads)
        fun copy r steady free allocated => ?_
      exact .bind (.replaceAndRecord steady free allocated)
        fun _ _ steady _ _ => .pure steady trivial
  · exact .pure steady trivial

theorem Marshal.makes_encoded (mode : MarshalMode) (value : String) :
    Tree.Makes [] Tree.piece (Marshal.encoded mode value) := by
  cases mode with
  | literal => exact Tree.makes_stringLiteral value
  | identifier => exact Tree.makes_identifier value

theorem Marshal.isIdentifier_of_mem_reads {name : String} {use : NodeId}
    (member : use ∈ Marshal.reads p name) :
    (p.node use).isIdentifier = true := by
  rw [Marshal.reads, List.mem_filter, Tree.identifiersNamed, List.mem_filter] at member
  obtain ⟨⟨-, named⟩, -⟩ := member
  rw [Node.isIdentifierNamed, decide_eq_true_eq] at named
  rw [Node.isIdentifier, Program.node, named, Option.isSome_some]

theorem Marshal.free_of_mem_reads {name : String} {use : NodeId} (steady : p.Steady)
    (member : use ∈ Marshal.reads p name) : p.Free use := by
  refine .of_identifier (isIdentifier_of_mem_reads member) (steady.linked.not_binds_of_isUse ?_)
  rw [Marshal.reads, List.mem_filter, decide_eq_true_eq] at member
  rw [member.2]
  rfl

theorem Marshal.steadily_unwrapGroup (mode : MarshalMode) (group : Marshal.Group) (value : String)
    (steady : p.Steady) : Steadily p (Marshal.unwrapGroup mode group value) any := by
  refine .bind (.forIn (fun _ => True) steady trivial fun declarator _ q steady _ _ => .program ?_)
    fun _ q steady _ _ => .program (.bind (.forIn (fun _ => True) steady trivial
      fun use member r steadyAfter leads _ => ?_)
      fun _ _ steady _ _ => .mono (.log _ steady) fun _ _ _ => trivial)
  · split
    · exact .bind (.remove steady) fun _ _ steady _ _ => .pure steady ⟨rfl, trivial⟩
    · exact .pure steady ⟨rfl, trivial⟩
  · refine .exchange steadyAfter (Marshal.makes_encoded mode value)
      ((Marshal.free_of_mem_reads steady member).leads leads)
      fun encoded r steady free allocated => ?_
    exact .bind (.discardReplace steady free allocated)
      fun _ _ steady _ _ => .pure steady ⟨rfl, trivial⟩

theorem Marshal.steadily (function : String) (mode : MarshalMode) (steady : p.Steady) :
    Steadily p (Marshal.run function mode) any := by
  refine .context fun c => .program (.anyChange steady fun group _ q steady _ => ?_)
  split
  · exact .pure steady trivial
  · exact .bind (Marshal.steadily_unwrapGroup mode group _ steady) fun _ _ steady _ _ =>
      .pure steady trivial

theorem Decoder.steadily_callStep (primitive : Primitive) {call : NodeId} (steady : p.Steady)
    (free : p.Free call) : Steadily p (Decoder.callStep primitive call) any := by
  refine .program ?_
  split
  · exact .pure steady trivial
  · rename_i value result
    refine .exchange steady (Tree.makes_encode value) free fun encoded r steady free allocated => ?_
    exact .bind (.replaceAndRecord steady free allocated) fun _ _ steady _ _ => .pure steady trivial

theorem Decoder.steadily_aliasStep (a : Decoder.Alias) (steady : p.Steady) :
    Steadily p (Decoder.aliasStep a) any := by
  refine .program ?_
  split
  · rename_i declared init shape
    split
    · exact .pure steady trivial
    · rename_i binding belongs
      refine .bindAny (.anyChange steady fun reference member q steadyAfter leads => ?_)
        fun redirected q steady _ => .bindAny ?_ fun _ _ steady _ => .pure steady trivial
      · have free := (steady.sound.free_of_reference belongs member).leads leads
        refine .program ?_
        split
        · refine .exchange steadyAfter (Tree.makes_identifier a.target) free
            fun identifier r steady free allocated => ?_
          exact .bind (.discardReplace steady free allocated)
            fun _ _ steady _ _ => .pure steady trivial
        · exact .pure steadyAfter trivial
      · refine .program ?_
        dsimp only
        split
        · exact .bind (.remove steady) fun _ _ steady _ _ =>
            .bind (.record _ _ _ steady) fun _ _ steady _ _ => .pure steady trivial
        · exact .pure steady trivial
  · exact .pure steady trivial

theorem Decoder.steadily_calls (names : List String) (primitive : Primitive) (steady : p.Steady) :
    Steadily p (SimplifyM.visit (Decoder.callsOneOf names) (Decoder.callStep primitive)) any := by
  refine .visit steady fun call q steadyAfter leads calls => ?_
  have free : p.Free call := by
    refine .of_isPlain steady ?_
    cases shape : p.node call <;> simp_all [Decoder.callsOneOf, Node.isPlain]
  exact Decoder.steadily_callStep primitive steadyAfter (free.leads leads)

theorem Decoder.steadily (name : String) (primitive : Primitive) (steady : p.Steady) :
    Steadily p (Decoder.run name primitive) any := by
  refine .program (.bind (.forIn (fun _ => True) steady trivial fun a _ q steady _ _ => ?_)
    fun _ q steady _ _ => .bindAny (Decoder.steadily_calls _ primitive steady)
      fun resolved q steady _ => .bindAny (.anyChange steady fun a _ q steady _ => ?_)
        fun _ _ steady _ => .pure steady trivial)
  · exact .bind (.record _ _ _ steady) fun _ _ steady _ _ => .pure steady ⟨rfl, trivial⟩
  · exact .ifAttached steady fun _ => Decoder.steadily_aliasStep a steady

/-! ### Objects and classes -/

theorem ObjectLiteral.makes_property (entry : ObjectLiteral.Entry) :
    Tree.Makes [] Tree.piece (ObjectLiteral.property entry) := by
  refine .bind (Tree.makes_copy entry.value) fun value => ?_
  cases entry.key with
  | named name => exact Tree.makes_namedProperty name value
  | quoted name => exact Tree.makes_quotedProperty name value
  | computed key =>
    refine .bind ((Tree.makes_copy key).frame (Tree.piece value)) fun label => ?_
    exact Tree.makes_alloc (.property label value true) (by simp [Node.part])

theorem ObjectLiteral.steadily (steady : p.Steady) : Steadily p ObjectLiteral.run any := by
  refine .visit steady fun declarator q steady _ _ => .program ?_
  split
  · exact .pure steady trivial
  · rename_i object entries planned
    have free : q.Free object.init :=
      .of_isPlain steady (by rw [ObjectLiteral.shape_of_plan? planned]; rfl)
    have makes := Tree.Makes.mapM entries fun entry _ => ObjectLiteral.makes_property entry
    refine .bind (.build steady makes) fun properties r steadyAfter leads made => ?_
    obtain ⟨grown, rfl, building⟩ := made
    -- The properties hang nowhere until all statements are gone.
    refine .bind
      (.forIn (fun r => ∀ property ∈ properties, r.tree.IsTop property ∧ property ≠ r.root)
        steadyAfter (fun property member => ?_) fun entry _ r steady _ kept => ?_)
      fun _ r steady further kept => ?_
    · have loose := building.loose property member
      refine ⟨⟨loose.allocated, loose.detached⟩, ?_⟩
      rintro rfl
      exact loose.new steady.isTop.allocated
    · refine .bind (.remove steady)
        fun _ s steady leads still => .pure steady ⟨rfl, fun property member => ?_⟩
      rw [leads.root]
      exact ⟨still property (kept property member).1, (kept property member).2⟩
    · refine .bind (.adopt steady kept building.distinct (by simp [Node.part]))
        fun literal s steady adopted allocated => ?_
      refine .bind
        (.discardReplace steady (free.leads ((leads.trans further).trans adopted)) allocated) ?_
      exact fun _ _ steady _ _ => .bind (.record _ _ _ steady)
        fun _ _ steady _ _ => .pure steady trivial

def ClassForm.constructorOf (f : Function NodeId) : StateM Tree NodeId := do
  let params ← f.params.mapM Tree.copy
  let body ← Tree.copy f.body
  Tree.alloc (.function ⟨.expression, none, params, body, false, false⟩)

def ClassForm.classAround (name : String) (methods : List ClassForm.Method) (function : NodeId) :
    StateM Tree NodeId := do
  let first ← Tree.memberFunction .constructor "constructor" function
  let others ← methods.mapM fun method => do
    Tree.memberFunction .method method.name (← Tree.copy method.function)
  Tree.classDeclaration name (first :: others)

theorem ClassForm.classOf_eq (f : Function NodeId) (name : String) (methods : List ClassForm.Method)
    (t : Tree) :
    ClassForm.classOf f name methods t =
      ClassForm.classAround name methods (ClassForm.constructorOf f t).1
        (ClassForm.constructorOf f t).2 := rfl

theorem ClassForm.makes_classAround (name : String) (methods : List ClassForm.Method)
    (function : NodeId) :
    Tree.Makes [function] Tree.piece (ClassForm.classAround name methods function) := by
  refine .bind (Tree.makes_memberFunction .constructor "constructor" function) fun first => ?_
  have members := Tree.Makes.mapM (f := fun method : ClassForm.Method => do
    Tree.memberFunction .method method.name (← Tree.copy method.function)) methods fun method _ =>
      .bind (Tree.makes_copy method.function)
        fun copy => Tree.makes_memberFunction .method method.name copy
  refine .bind (members.frame (Tree.piece first)) fun others => ?_
  exact (Tree.makes_classDeclaration name (first :: others)).perm
    (List.perm_append_singleton first others)

theorem Program.Steady.isPattern_of_mem_params {function param : NodeId} {f : Function NodeId}
    (steady : p.Steady) (shape : p.node function = .function f) (member : param ∈ f.params) :
    p.tree.IsPattern param := by
  have held : param ∈ (p.tree.node function).part .params := by
    rw [show p.tree.node function = _ from shape]
    exact member
  exact steady.wellBound.isPattern_of_binds steady.linked (.place (by simp) held)

theorem ClassForm.building_constructorOf {t mid : Tree} {held : List NodeId}
    (building : t.Building held mid) (f : Function NodeId)
    (patterns : ∀ param ∈ f.params, mid.IsPattern param) :
    t.Building ((ClassForm.constructorOf f mid).1 :: held) (ClassForm.constructorOf f mid).2 := by
  obtain ⟨withParams, copied⟩ := building.mapM_copy f.params
  have paramPatterns := copied patterns
  have result : ClassForm.constructorOf f mid = (do
      let body ← Tree.copy f.body
      Tree.alloc (.function ⟨.expression, none, (f.params.mapM Tree.copy mid).1, body,
        false, false⟩) :
        StateM Tree NodeId) (f.params.mapM Tree.copy mid).2 := rfl
  rw [result]
  generalize (f.params.mapM Tree.copy mid).1 = params at *
  generalize (f.params.mapM Tree.copy mid).2 = afterParams at *
  obtain ⟨copyOf, bodyCopied, -, isCopy, withBody⟩ := withParams.copied f.body
  rw [← isCopy] at withBody
  let body := (Tree.copyMapped f.body afterParams).1.1
  let function : Node NodeId := .function ⟨.expression, none, params, body, false, false⟩
  have order : (body :: (params ++ held)).Perm (function.children ++ held) :=
    (List.perm_append_singleton body params).symm.append_right held
  refine (withBody.perm order).alloc function (fun part isPlace child isHeld => ?_)
    (by simp [function, Node.part])
  simp only [List.mem_cons, List.not_mem_nil, or_false] at isPlace
  rcases isPlace with rfl | rfl | rfl <;>
    simp only [function, Node.part, List.not_mem_nil] at isHeld
  · simp at isHeld
  · exact bodyCopied.grows.isPattern (paramPatterns child isHeld)

theorem ClassForm.building_classOf {t mid : Tree} {held : List NodeId}
    (building : t.Building held mid) (f : Function NodeId)
    (patterns : ∀ param ∈ f.params, mid.IsPattern param) (name : String)
    (methods : List ClassForm.Method) :
    t.Building ((ClassForm.classOf f name methods mid).1 :: held)
      (ClassForm.classOf f name methods mid).2 := by
  rw [ClassForm.classOf_eq]
  exact ClassForm.makes_classAround name methods _ t held _
    (ClassForm.building_constructorOf building f patterns)

theorem ClassForm.steadily (steady : p.Steady) : Steadily p ClassForm.run any := by
  refine .visit steady fun function q steady _ _ => .program (.context fun c => ?_)
  split
  · exact .pure steady trivial
  · rename_i plan planned
    obtain ⟨-, _, _, _, fits⟩ := (ClassForm.plan?_eq_some_iff steady.linked).mp planned
    have shape := fits.shape
    have free : q.Free function := .of_isPlain steady (by rw [shape]; rfl)
    have building :=
      ClassForm.building_classOf (.start steady.linked steady.wellBound steady.nonempty)
        plan.function (fun param member => steady.isPattern_of_mem_params shape member)
        plan.name plan.methods
    refine .bind (.buildPieces _ steady building) fun class_ r steadyAfter leads made => ?_
    obtain ⟨rfl, rfl⟩ := made
    have loose := building.loose _ (List.mem_singleton_self _)
    refine .bind (.forIn (fun _ => True) steadyAfter trivial fun method _ r steady _ _ => ?_)
      fun _ r steady further _ => ?_
    · exact .bind (.remove steady) fun _ _ steady _ _ => .pure steady ⟨rfl, trivial⟩
    · refine
        .bind (.replace steady (free.leads (leads.trans further))
          (further.allocated loose.allocated)) ?_
      exact fun placed _ steady _ _ => .bind (.record _ _ _ steady)
        fun _ _ steady _ _ => .pure steady trivial

/-! ### The table of a program -/

/-! ### Calls -/

theorem TableEntry.steadily_reads (steady : p.Steady) : Steadily p TableEntry.runReads any := by
  refine .visit steady fun member q steadyAfter leads isMember => .program (.context fun c => ?_)
  have free : p.Free member := by
    refine .of_isPlain steady ?_
    cases shape : p.node member <;> simp_all [TableEntry.isNamedMember, Node.isPlain]
  dsimp only
  split
  · exact .pure steadyAfter trivial
  · rename_i value found
    refine .exchange steadyAfter (Tree.makes_copy value) (free.leads leads)
      fun copy r steady free allocated => ?_
    exact .bind (.replaceAndRecord steady free allocated) fun _ _ steady _ _ => .pure steady trivial

theorem TableEntry.steadily_calls (steady : p.Steady) : Steadily p TableEntry.runCalls any := by
  refine .visit steady fun call q steady _ _ => .program (.context fun c => ?_)
  split
  · exact .pure steady trivial
  · exact .snippet fun label => .expandCall steady

theorem Call.steadily_expandNamed (function : NodeId) (steady : p.Steady) :
    Steadily p (Call.expandNamed function) any := by
  refine .program (.context fun c => ?_)
  split
  · exact .pure steady trivial
  · refine .bind (.record _ _ _ steady)
      fun _ _ steady _ _ => .anyChange steady fun call _ q steady _ => ?_
    exact .ifAttached steady fun _ => .expandCall steady

theorem Call.steadily_named (steady : p.Steady) : Steadily p Call.runNamed any :=
  .visit steady fun function _ steady _ _ => Call.steadily_expandNamed function steady

theorem Call.steadily_immediate (steady : p.Steady) : Steadily p Call.runImmediate any := by
  refine .program (.anyChange steady
    fun pair _ q steady _ => .ifAttached steady fun _ => .program ?_)
  split
  · exact .pure steady trivial
  · exact .expandCall steady

/-! ### Declarations without use -/

theorem Unused.steadily_removeStep (id : NodeId) (steady : p.Steady) :
    Steadily p (Unused.removeStep id) any := by
  refine .program (.context fun c => ?_)
  split
  · exact .pure steady trivial
  · refine .snippet fun text => .bind (.remove steady) fun _ _ steady _ _ => ?_
    exact .bind (.record _ _ _ steady) fun _ _ steady _ _ => .pure steady trivial

theorem Unused.steadily_sweep (steady : p.Steady) : Steadily p Unused.sweep any := by
  refine .visit steady fun id q steady _ _ => .program (.context fun c => ?_)
  have removes {r : Program} (steady : r.Steady) (expanded : Bool) : Steadily r (do
      let removed ← Unused.removeStep id
      return expanded || removed) any :=
    .bind (Unused.steadily_removeStep id steady) fun _ _ steady _ _ => .pure steady trivial
  split
  · exact .bind (Call.steadily_expandNamed id steady)
      fun expanded _ steady _ _ => removes steady expanded
  · exact .bindAny (.pure steady trivial) fun expanded _ steady _ => removes steady expanded

theorem Unused.steadily_sweepWithin (limit : Nat) (steady : p.Steady) :
    Steadily p (Unused.sweepWithin limit) any := by
  induction limit generalizing p with
  | zero => exact .pure steady trivial
  | succ limit induction =>
    refine .bind (Unused.steadily_sweep steady) fun changed q steady _ _ => ?_
    split
    · exact .bindAny (.bind (induction steady) fun _ _ steady _ _ => .pure steady trivial)
        fun _ _ steady _ => .pure steady trivial
    · exact .pure steady trivial

namespace Rule

theorem steadily (rule : Rule) (steady : p.Steady) : Steadily p rule.run any := by
  cases rule with
  | switchUnflattening => exact FlatLoop.steadily steady
  | computedCall => exact DottedCall.steadily steady
  | dispatcherResolution name primitive => exact Decoder.steadily name primitive steady
  | marshalUnwrap function mode => exact Marshal.steadily function mode steady
  | unicodeDecode => exact Escapes.steadily steady
  | branchPruning => exact Branch.steadily steady
  | initializerChain => exact Alias.steadily_initializers steady
  | aliasCollapse => exact Alias.steadily_uses steady
  | functionInlining => exact Call.steadily_named steady
  | iifeInlining => exact Call.steadily_immediate steady
  | objectMethodInlining => exact TableEntry.steadily_calls steady
  | memberPropertyInlining => exact TableEntry.steadily_reads steady
  | binaryProxy => exact Proxy.steadily steady
  | constInlining => exact ConstantUse.steadily steady
  | arrayIndexInlining => exact ArrayRead.steadily steady
  | constantFolding => exact Folding.steadily steady
  | unusedDeclaration => exact .program (Unused.steadily_sweepWithin _ steady)
  | objectReconstruction => exact ObjectLiteral.steadily steady
  | classReconstruction => exact ClassForm.steadily steady

/-- The program that a rule leaves in a context, whether it succeeds or fails. -/
def leaves (rule : Rule) (c : Context) (p : Program) : Program :=
  match rule.run ⟨p, c⟩ with
  | .ok _ w => w.program
  | .error _ w => w.program

/-- The program that several rules leave, one after the other. -/
def leavesAll (runs : List (Rule × Context)) (p : Program) : Program :=
  runs.foldl (fun p run => run.1.leaves run.2 p) p

theorem steady_leaves (rule : Rule) (c : Context) (steady : p.Steady) :
    (rule.leaves c p).Steady := by
  have result := rule.steadily steady c
  unfold leaves
  cases ran : rule.run ⟨p, c⟩ with
  | ok changed w =>
    rw [ran] at result
    exact result.1
  | error e w =>
    rw [ran] at result
    exact result.1

theorem steady_leavesAll (runs : List (Rule × Context)) (steady : p.Steady) :
    (leavesAll runs p).Steady := by
  induction runs generalizing p with
  | nil => exact steady
  | cons run rest induction => exact induction (run.1.steady_leaves run.2 steady)

/-- Whatever rules have been applied to a program whose binding positions hold identifiers and
patterns, and whether they succeeded or failed, its table agrees with a fresh one. -/
theorem agrees_after_runs {t : Tree} {root : NodeId} (linked : t.Linked) (isTop : t.IsTop root)
    (wellBound : t.WellBound) (made : Program.ofTree t root = .ok p)
    (runs : List (Rule × Context)) :
    (leavesAll runs p).Agrees := by
  obtain ⟨isTree, -, sound⟩ := Program.sound_of_ofTree linked isTop made
  exact (steady_leavesAll runs ⟨sound, isTree ▸ wellBound⟩).sound.agrees

/-- The tree of `function f(a) { return a; } f(true);`. -/
def calledOnce : Tree :=
  ⟨#[⟨.identifier "f", some ⟨5⟩⟩, ⟨.identifier "a", some ⟨5⟩⟩, ⟨.identifier "a", some ⟨3⟩⟩,
    ⟨.return_ (some ⟨2⟩), some ⟨4⟩⟩, ⟨.block [⟨3⟩], some ⟨5⟩⟩,
    ⟨.function ⟨.declaration, some ⟨0⟩, [⟨1⟩], ⟨4⟩, false, false⟩, some ⟨10⟩⟩,
    ⟨.identifier "f", some ⟨8⟩⟩, ⟨.literal (.boolean true), some ⟨8⟩⟩, ⟨.call ⟨6⟩ [⟨7⟩], some ⟨9⟩⟩,
    ⟨.expressionStatement ⟨8⟩, some ⟨10⟩⟩, ⟨.program [⟨5⟩, ⟨9⟩], none⟩]⟩

theorem linked_calledOnce : calledOnce.Linked := Tree.linked_of_checks (by decide)

theorem isTop_calledOnce : calledOnce.IsTop ⟨10⟩ := ⟨by decide, by decide⟩

theorem wellBound_calledOnce : calledOnce.WellBound := Tree.wellBound_of_bindsWell (by decide)

theorem exists_agrees_after_runs : ∃ p, Program.ofTree calledOnce ⟨10⟩ = .ok p ∧
    (leavesAll [(.functionInlining, default), (.unusedDeclaration, default)] p).Agrees := by
  obtain ⟨scopes, made, -⟩ := Program.exists_ofTree linked_calledOnce isTop_calledOnce rfl
  exact ⟨_, made, agrees_after_runs linked_calledOnce isTop_calledOnce wellBound_calledOnce made _⟩

end Rule

end Unravel
