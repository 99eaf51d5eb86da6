import Unravel.Error
import Unravel.Scope.Basic

/-!
Resolution of a tree: `Scopes.ofTree` declares every name in its scope and then attaches every
identifier that reads or writes a variable to the binding found from where it stands.

A `var` belongs to the nearest function or program, `let`, `const`, classes and function
declarations to the scope around them, parameters and the name of a function expression to the
function itself.
-/

namespace Unravel.Scopes

def openScope (s : Scopes) (kind : ScopeKind) (node : NodeId) (outer : Option ScopeId) :
    ScopeId × Scopes :=
  let id : ScopeId := ⟨s.scopes.size⟩
  (id, { s with
    scopes := s.scopes.push ⟨kind, node, outer, ∅⟩
    owned := s.owned.insert node id })

/-- The scope that a `var` inside a scope belongs to: the nearest one of a function or program,
or the outermost one. -/
def hoistTarget (s : Scopes) (id : ScopeId) : ScopeId :=
  let isBlock (scope : ScopeId) : Bool := (s.scope scope).kind = .block
  match (s.chain id).dropWhile isBlock with
  | target :: _ => target
  | [] => (s.chain id).getLastD id

/-- Declares the name an identifier spells. If the scope declares it already, the identifier
writes that binding. -/
def declare (s : Scopes) (t : Tree) (scope : ScopeId) (kind : BindingKind)
    (declaration identifier : NodeId) : Scopes :=
  match (t.node identifier).identifier? with
  | none => s
  | some name =>
    match (s.scope scope).names[name]? with
    | some existing =>
      let s := s.modifyBinding existing fun b => { b with mutations := b.mutations ++ [identifier] }
      { s with occurrences := s.occurrences.insert identifier existing }
    | none =>
      let id : BindingId := ⟨s.bindings.size⟩
      { s with
        bindings := s.bindings.push ⟨name, kind, identifier, declaration, scope, [], [], false⟩
        scopes := s.scopes.modify scope.index fun entry =>
          { entry with names := entry.names.insert name id }
        occurrences := s.occurrences.insert identifier id }

def declarePattern (s : Scopes) (t : Tree) (scope : ScopeId) (kind : BindingKind)
    (declaration pattern : NodeId) : Scopes :=
  (t.patternNames pattern).foldl (fun s id => s.declare t scope kind declaration id) s

/-- Declares the name of a function: outside for a declaration, inside for an expression. -/
def declareFunctionName (s : Scopes) (t : Tree) (own : ScopeId) (outer : Option ScopeId)
    (node : NodeId) (f : Function NodeId) : Scopes :=
  match f.name, f.kind, outer with
  | some name, .declaration, some outer => s.declare t outer .function node name
  | some name, .expression, _ => s.declare t own .local_ node name
  | _, _, _ => s

/-- Declares the names that a node itself introduces. `inner` is the scope that the node's
children stand in and `outer` the one around the node. -/
def declareNode (s : Scopes) (t : Tree) (inner outer : Option ScopeId) (node : NodeId) :
    Scopes :=
  match t.node node, inner with
  | .variableDeclaration kind declarations, some scope =>
    let target := if kind = .var then s.hoistTarget scope else scope
    declarations.foldl (fun s declarator =>
      match t.node declarator with
      | .variableDeclarator pattern _ =>
        s.declarePattern t target (.ofVarKind kind) declarator pattern
      | _ => s) s
  | .function f, some own =>
    f.params.foldl (fun s param => s.declarePattern t own .param node param)
      (s.declareFunctionName t own outer node f)
  | .classDef ⟨some name, _, _, true⟩, some scope => s.declare t scope .class_ node name
  | _, _ => s

def declareWithin (t : Tree) (outer : Option ScopeId) (s : Scopes) : Nat → NodeId → Scopes
  | 0, _ => s
  | limit + 1, node =>
    let (inner, s) := match t.scopeKind? node with
      | some kind =>
        let (id, s) := s.openScope kind node outer
        (some id, s)
      | none => (outer, s)
    (t.node node).children.foldl (fun s child => declareWithin t inner s limit child)
      (s.declareNode t inner outer node)

def attach (s : Scopes) (identifier : NodeId) (id : BindingId) (role : Role) : Scopes :=
  let s := s.modifyBinding id fun b => { b with
    references := if role.reads then b.references ++ [identifier] else b.references
    mutations := if role.writes then b.mutations ++ [identifier] else b.mutations }
  { s with occurrences := s.occurrences.insert identifier id }

def attachUse (t : Tree) (s : Scopes) (id : NodeId) : Scopes :=
  match (t.node id).identifier? with
  | none => s
  | some name =>
    let role := t.role id
    match if role.isUse then s.resolve? t id name else none with
    | some binding => s.attach id binding role
    | none => s

/-- The table of the tree below `root`, which must open a scope. -/
def ofTree (t : Tree) (root : NodeId) : Except Error Scopes :=
  if (t.scopeKind? root).isNone then .error (.noScope (t.node root).kindName)
  else .ok ((t.descendants root).foldl (attachUse t) (declareWithin t none empty t.size root))

def detach (s : Scopes) (identifier : NodeId) : Scopes :=
  match s.occurrences[identifier]? with
  | none => s
  | some id =>
    let s := s.modifyBinding id fun b => { b with
      references := b.references.filter (· ≠ identifier)
      mutations := b.mutations.filter (· ≠ identifier) }
    { s with occurrences := s.occurrences.erase identifier }

/-- Retires a binding whose declaration leaves the tree. -/
def retire (s : Scopes) (id : BindingId) : Scopes :=
  let b := s.binding id
  let s := s.modifyBinding id fun b => { b with retired := true }
  { s with scopes := s.scopes.modify b.scope.index fun entry =>
      if entry.names[b.name]? = some id then { entry with names := entry.names.erase b.name }
      else entry }

def forget (s : Scopes) (node : NodeId) : Scopes := { s with owned := s.owned.erase node }

end Unravel.Scopes
