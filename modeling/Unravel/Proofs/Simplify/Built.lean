import Unravel.Proofs.Simplify.Moved
import Unravel.Proofs.Simplify.Planned

/-!
Classes that are built (`ClassForm.Built`). The constructor is made of copies of the parts of a
function, and the methods are copies of functions, all of them made of nodes that were not there
before.
-/

namespace Unravel

namespace Tree

variable {t mid after : Tree} {id : NodeId} {n : Node NodeId}

structure IsNew (t after : Tree) (id : NodeId) (n : Node NodeId) : Prop where
  new : ¬t.Allocated id
  allocated : after.Allocated id
  node : after.node id = n

/-- What has come into a store since another one stays as it is. -/
def Retains (t mid after : Tree) : Prop :=
  ∀ id, ¬t.Allocated id → mid.Allocated id → after.Allocated id ∧ after.node id = mid.node id

theorem Extends.retains (further : mid.Extends after) : t.Retains mid after :=
  fun _ _ allocated => ⟨Nat.lt_of_lt_of_le allocated further.size, further.node allocated⟩

theorem IsNew.keep (isNew : t.IsNew mid id n) (retains : t.Retains mid after) :
    t.IsNew after id n :=
  ⟨isNew.new, (retains id isNew.new isNew.allocated).1,
    (retains id isNew.new isNew.allocated).2.trans isNew.node⟩

theorem isNew_alloc (further : t.Extends mid) (n : Node NodeId) :
    t.IsNew (Tree.alloc n mid).2 (Tree.alloc n mid).1 n := by
  refine ⟨fun isOld => mid.not_allocated_next (Nat.lt_of_lt_of_le isOld further.size),
    allocated_alloc.mpr (.inr rfl), ?_⟩
  rw [show (Tree.alloc n mid).1 = ⟨mid.size⟩ from rfl, node_alloc, if_pos rfl]

end Tree

namespace ClassForm

variable {t mid after : Tree} {kind : MethodKind} {f : Function NodeId} {name : String}
  {methods : List Method} {root copy value member class_ label first constructor body : NodeId}
  {params members held : List NodeId}

def IsMember (t after : Tree) (kind : MethodKind) (name : String) (value member : NodeId) : Prop :=
  ∃ key, t.IsNew after member (.classMethod kind key value false) ∧
    t.IsNew after key (.identifier name)

def IsReproduced (t after : Tree) (root copy : NodeId) :
    Prop := ∃ g, g root = copy ∧ t.Reproduced after root g

/-- A class has been built from a function and some methods. Its first member is the constructor,
which is a copy of the function, and then there is one for each method, in the order of the methods.
-/
structure Built (t after : Tree) (f : Function NodeId) (name : String) (methods : List Method)
    (class_ label first constructor : NodeId) (params : List NodeId) (body : NodeId)
    (members : List NodeId) : Prop where
  shape : t.IsNew after class_ (.classDef ⟨some label, none, first :: members, true⟩)
  label : t.IsNew after label (.identifier name)
  first : IsMember t after .constructor "constructor" constructor first
  constructor :
    t.IsNew after constructor (.function ⟨.expression, none, params, body, false, false⟩)
  params : List.Forall₂ (IsReproduced t after) f.params params
  body : IsReproduced t after f.body body
  members : List.Forall₂ (fun method member =>
    ∃ value, IsMember t after .method method.name value member ∧
      IsReproduced t after method.function value) methods members

theorem IsMember.keep (isMember : IsMember t mid kind name value member)
    (retains : t.Retains mid after) :
    IsMember t after kind name value member := by
  obtain ⟨key, isNew, isKey⟩ := isMember
  exact ⟨key, isNew.keep retains, isKey.keep retains⟩

theorem IsReproduced.keep (isReproduced : IsReproduced t mid root copy)
    (retains : t.Retains mid after) :
    IsReproduced t after root copy := by
  obtain ⟨g, same, reproduced⟩ := isReproduced
  exact ⟨g, same, reproduced.keep fun {id} => retains id⟩

theorem Built.keep (built : Built t mid f name methods class_ label first constructor
    params body members) (retains : t.Retains mid after) :
    Built t after f name methods class_ label first constructor params body members where
  shape := built.shape.keep retains
  label := built.label.keep retains
  first := built.first.keep retains
  constructor := built.constructor.keep retains
  params := built.params.imp fun _ _ isCopy => isCopy.keep retains
  body := built.body.keep retains
  members := built.members.imp fun _ _ made => by
    obtain ⟨value, isMember, isCopy⟩ := made
    exact ⟨value, isMember.keep retains, isCopy.keep retains⟩

theorem isMember_memberFunction (further : t.Extends mid) (kind : MethodKind) (name : String)
    (value : NodeId) :
    IsMember t (Tree.memberFunction kind name value mid).2 kind name value
      (Tree.memberFunction kind name value mid).1 :=
  ⟨_, Tree.isNew_alloc (further.trans (.alloc _ _)) _,
    (Tree.isNew_alloc further _).keep (Tree.Extends.alloc _ _).retains⟩

theorem isReproduced_copy (assembly : t.Assembly held mid) (linked : t.Linked)
    (allocated : t.Allocated root) :
    IsReproduced t (Tree.copy root mid).2 root (Tree.copy root mid).1 :=
  assembly.exists_reproduced linked allocated

theorem extends_of_grows (grows : t.Grows mid) : t.Extends mid := ⟨grows.size, grows.node⟩

theorem exists_constructor (linked : t.Linked) (nonempty : t.size ≠ 0)
    (allocated : ∀ root ∈ f.params ++ [f.body], t.Allocated root) :
    ∃ params body, t.IsNew (constructorOf f t).2 (constructorOf f t).1
        (.function ⟨.expression, none, params, body, false, false⟩) ∧
      List.Forall₂ (IsReproduced t (constructorOf f t).2) f.params params ∧
        IsReproduced t (constructorOf f t).2 f.body body := by
  have start := Tree.Assembly.start linked nonempty
  have params := start.forall₂_mapM f.params (fun param _ _ => Tree.yields_copy_assembly param)
    (fun param copy after => IsReproduced t after param copy)
    (fun param member _ _ assembly => isReproduced_copy assembly linked
      (allocated param (List.mem_append_left _ member)))
    fun _ _ grows isCopy => isCopy.keep (extends_of_grows grows).retains
  have assembly := (Tree.workshop_assembly t).mapM f.params
    (fun param _ => Tree.yields_copy_assembly param) [] t start
  have body := isReproduced_copy assembly linked (allocated f.body (by simp))
  have further := assembly.copy f.body
  have grows :=
    ((Tree.yields_copy_assembly f.body) [] _ (.start assembly.grows.linked assembly.nonempty)).grows
  have retains := (Tree.Extends.alloc (.function ⟨.expression, none, (f.params.mapM Tree.copy t).1,
    (Tree.copy f.body (f.params.mapM Tree.copy t).2).1, false, false⟩)
      (Tree.copy f.body (f.params.mapM Tree.copy t).2).2).retains (t := t)
  exact ⟨_, _, Tree.isNew_alloc (extends_of_grows further.grows) _,
    params.imp fun _ _ isCopy => (isCopy.keep (extends_of_grows grows).retains).keep retains,
    body.keep retains⟩

theorem exists_members (name : String) (linked : t.Linked) (further : t.Extends mid)
    (assembly : t.Assembly [constructor] mid)
    (allocated : ∀ method ∈ methods, t.Allocated method.function) :
    ∃ label first members,
      t.IsNew (classAround name methods constructor mid).2
        (classAround name methods constructor mid).1
          (.classDef ⟨some label, none, first :: members, true⟩) ∧
      t.IsNew (classAround name methods constructor mid).2 label (.identifier name) ∧
      IsMember t (classAround name methods constructor mid).2 .constructor "constructor"
        constructor first ∧
      mid.Extends (classAround name methods constructor mid).2 ∧
      List.Forall₂ (fun method member => ∃ value,
        IsMember t (classAround name methods constructor mid).2 .method method.name value member ∧
          IsReproduced t (classAround name methods constructor mid).2 method.function value)
            methods members := by
  let member (method : Method) : StateM Tree NodeId := do
    Tree.memberFunction .method method.name (← Tree.copy method.function)
  have yields (t : Tree) (method : Method) : Tree.Yields t.Assembly [] Tree.piece (member method) :=
    .bind (Tree.yields_copy_assembly method.function) fun copy =>
      (Tree.workshop_assembly t).memberFunction .method method.name copy
  have withFirst := (Tree.workshop_assembly t).memberFunction .constructor "constructor" constructor
    [] mid assembly
  have isFirst := isMember_memberFunction further .constructor "constructor" constructor
  have furtherFirst :
      mid.Extends (Tree.memberFunction .constructor "constructor" constructor mid).2 :=
    (Tree.Extends.alloc _ _).trans (.alloc _ _)
  have result : classAround name methods constructor mid = Tree.classDeclaration name
      ((Tree.memberFunction .constructor "constructor" constructor mid).1 ::
        (methods.mapM member (Tree.memberFunction .constructor "constructor" constructor mid).2).1)
      (methods.mapM member (Tree.memberFunction .constructor "constructor" constructor mid).2).2 :=
      rfl
  rw [result]
  generalize (Tree.memberFunction .constructor "constructor" constructor mid).1 = first at *
  generalize (Tree.memberFunction .constructor "constructor" constructor mid).2 = begun at *
  have others := withFirst.forall₂_mapM methods (fun method _ t => yields t method)
    (fun method member after => ∃ value, IsMember t after .method method.name value member ∧
      IsReproduced t after method.function value)
    (fun method isMethod held mid assembly => ?_) fun _ _ grows isMember => ?_
  · have grows :=
      ((Tree.workshop_assembly begun).mapM methods (fun method _ => yields begun method) [] begun
        (.start withFirst.grows.linked withFirst.nonempty)).grows
    generalize (methods.mapM member begun).1 = made at *
    generalize (methods.mapM member begun).2 = ended at *
    have labelled : ended.Extends (Tree.identifier name ended).2 := .alloc _ _
    have furtherEnded := (further.trans furtherFirst).trans (extends_of_grows grows)
    have last : ended.Extends (Tree.classDeclaration name (first :: made) ended).2 :=
      labelled.trans (.alloc _ _)
    have retains : t.Retains ended (Tree.classDeclaration name (first :: made) ended).2 :=
      last.retains
    exact ⟨_, first, made, Tree.isNew_alloc (furtherEnded.trans labelled) _,
      (Tree.isNew_alloc furtherEnded _).keep (Tree.Extends.alloc _ _).retains,
      isFirst.keep ((extends_of_grows grows).trans last).retains,
      (furtherFirst.trans (extends_of_grows grows)).trans last,
      others.imp fun _ _ made => by
        obtain ⟨value, isMember, isCopy⟩ := made
        exact ⟨value, isMember.keep retains, isCopy.keep retains⟩⟩
  · have isCopy := isReproduced_copy assembly linked (allocated method isMethod)
    have copied := (assembly.copy method.function).grows
    exact ⟨_, isMember_memberFunction (extends_of_grows copied) .method method.name _,
      isCopy.keep ((Tree.Extends.alloc _ _).trans (.alloc _ _)).retains⟩
  · obtain ⟨value, isMember, isCopy⟩ := isMember
    have retains := (extends_of_grows grows).retains (t := t)
    exact ⟨value, isMember.keep retains, isCopy.keep retains⟩

theorem exists_built (name : String) (methods : List Method) (linked : t.Linked)
    (building : t.Building [] t) (allocated : ∀ root ∈ f.params ++ [f.body], t.Allocated root)
    (patterns : ∀ param ∈ f.params, t.IsPattern param)
    (allocatedMethods : ∀ method ∈ methods, t.Allocated method.function) :
    ∃ label first constructor params body members, Built t (classOf f name methods t).2
      f name methods (classOf f name methods t).1 label first constructor params body members := by
  obtain ⟨params, body, isConstructor, isParams, isBody⟩ := exists_constructor linked
    building.nonempty allocated
  have between := (building_constructorOf building f patterns).toAssembly
  obtain ⟨label, first, members, shape, isLabel, isFirst, further, isMembers⟩ :=
    exists_members name linked (extends_of_grows between.grows) between allocatedMethods
  have retains := further.retains (t := t)
  exact ⟨label, first, _, params, body, members, shape, isLabel, isFirst,
    isConstructor.keep retains, isParams.imp fun _ _ isCopy => isCopy.keep retains,
    isBody.keep retains, isMembers⟩

end ClassForm

end Unravel
