import Unravel.Tree.Basic

/-!
Building trees in the store: constructors that allocate their fixed parts, and `Tree.graft`,
which allocates a closed term bottom up.

The order of allocation decides the handles. Children come before their parent in source order,
with one exception: a name that is written first but belongs to the form around it (the key of a
property or method, the name of a function or class, the only variable of a declaration, the
name of a defaulted parameter) is allocated last, just before the node it names.
-/

namespace Unravel.Tree

def identifier (name : String) : StateM Tree NodeId := alloc (.identifier name)

def stringLiteral (value : String) : StateM Tree NodeId :=
  alloc (.literal (.string value none))

def numberLiteral (value : Float) : StateM Tree NodeId := alloc (.literal (.number value))

/-- A property `key: value` named by an identifier. -/
def namedProperty (key : String) (value : NodeId) : StateM Tree NodeId := do
  let key ← identifier key
  alloc (.property key value false)

/-- A property `"key": value` named by a string. -/
def quotedProperty (key : String) (value : NodeId) : StateM Tree NodeId := do
  let key ← stringLiteral key
  alloc (.property key value false)

def dotMember (base : NodeId) (key : String) : StateM Tree NodeId := do
  let key ← identifier key
  alloc (.member base key false)

def memberFunction (kind : MethodKind) (name : String) (value : NodeId) :
    StateM Tree NodeId := do
  let key ← identifier name
  alloc (.classMethod kind key value false)

/-- A class declaration without a superclass. -/
def classDeclaration (name : String) (members : List NodeId) : StateM Tree NodeId := do
  let name ← identifier name
  alloc (.classDef ⟨some name, none, members, true⟩)

/-- Whether a property key is written down after its value. -/
def isLateKey : Term → Bool
  | .mk (.identifier _) | .mk (.literal (.string _ none)) => true
  | _ => false

mutual

def graft : Term → StateM Tree NodeId
  | .mk (.program body) => do alloc (.program (← graftList body))
  | .mk (.expressionStatement expression) => do
    alloc (.expressionStatement (← graft expression))
  | .mk (.variableDeclaration kind [.mk (.variableDeclarator (.mk (.identifier name)) init)]) => do
    let init ← graftOption init
    let target ← identifier name
    let declarator ← alloc (.variableDeclarator target init)
    alloc (.variableDeclaration kind [declarator])
  | .mk (.variableDeclaration kind declarations) => do
    alloc (.variableDeclaration kind (← graftList declarations))
  | .mk (.variableDeclarator target init) => do
    alloc (.variableDeclarator (← graft target) (← graftOption init))
  | .mk (.function ⟨kind, name, params, .mk (.block body), isGenerator, isAsync⟩) => do
    let params ← graftList params
    let body ← graftList body
    let name ← graftOption name
    let body ← alloc (.block body)
    alloc (.function ⟨kind, name, params, body, isGenerator, isAsync⟩)
  | .mk (.function ⟨kind, name, params, body, isGenerator, isAsync⟩) => do
    let params ← graftList params
    let body ← graft body
    let name ← graftOption name
    alloc (.function ⟨kind, name, params, body, isGenerator, isAsync⟩)
  | .mk (.classDef ⟨name, superClass, members, isDeclaration⟩) => do
    let superClass ← graftOption superClass
    let members ← graftList members
    let name ← graftOption name
    alloc (.classDef ⟨name, superClass, members, isDeclaration⟩)
  | .mk (.classMethod kind key value isStatic) => do
    let value ← graft value
    let key ← graft key
    alloc (.classMethod kind key value isStatic)
  | .mk (.block body) => do alloc (.block (← graftList body))
  | .mk (.return_ argument) => do alloc (.return_ (← graftOption argument))
  | .mk (.if_ test consequent alternate) => do
    alloc (.if_ (← graft test) (← graft consequent) (← graftOption alternate))
  | .mk (.while_ test body) => do alloc (.while_ (← graft test) (← graft body))
  | .mk (.for_ init test step body) => do
    alloc (.for_ (← graftOption init) (← graftOption test) (← graftOption step) (← graft body))
  | .mk (.switch discriminant cases) => do
    alloc (.switch (← graft discriminant) (← graftList cases))
  | .mk (.switchCase test consequent) => do
    alloc (.switchCase (← graftOption test) (← graftList consequent))
  | .mk .break_ => alloc .break_
  | .mk .continue_ => alloc .continue_
  | .mk .empty => alloc .empty
  | .mk (.assignmentPattern (.mk (.identifier name)) right) => do
    let right ← graft right
    let left ← identifier name
    alloc (.assignmentPattern left right)
  | .mk (.assignmentPattern left right) => do
    alloc (.assignmentPattern (← graft left) (← graft right))
  | .mk (.restElement argument) => do alloc (.restElement (← graft argument))
  | .mk (.arrayPattern elements) => do alloc (.arrayPattern (← graftList elements))
  | .mk (.identifier name) => identifier name
  | .mk (.literal value) => alloc (.literal value)
  | .mk .this_ => alloc .this_
  | .mk (.array elements) => do alloc (.array (← graftList elements))
  | .mk (.object properties) => do alloc (.object (← graftList properties))
  | .mk (.property key value computed) => do
    if !computed && isLateKey key then
      let value ← graft value
      let key ← graft key
      alloc (.property key value computed)
    else
      alloc (.property (← graft key) (← graft value) computed)
  | .mk (.call callee arguments) => do alloc (.call (← graft callee) (← graftList arguments))
  | .mk (.new callee arguments) => do alloc (.new (← graft callee) (← graftList arguments))
  | .mk (.member base key computed) => do alloc (.member (← graft base) (← graft key) computed)
  | .mk (.unary operator argument) => do alloc (.unary operator (← graft argument))
  | .mk (.update operator leading argument) => do
    alloc (.update operator leading (← graft argument))
  | .mk (.binary operator left right) => do
    alloc (.binary operator (← graft left) (← graft right))
  | .mk (.logical operator left right) => do
    alloc (.logical operator (← graft left) (← graft right))
  | .mk (.assignment operator left right) => do
    alloc (.assignment operator (← graft left) (← graft right))
  | .mk (.conditional test consequent alternate) => do
    alloc (.conditional (← graft test) (← graft consequent) (← graft alternate))
  | .mk (.sequence expressions) => do alloc (.sequence (← graftList expressions))

def graftList : List Term → StateM Tree (List NodeId)
  | [] => pure []
  | t :: ts => return (← graft t) :: (← graftList ts)

def graftOption : Option Term → StateM Tree (Option NodeId)
  | none => pure none
  | some t => return some (← graft t)

end

end Unravel.Tree
