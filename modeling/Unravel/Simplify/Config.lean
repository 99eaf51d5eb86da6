import Unravel.Value.Basic

/-!
Settings: which rules are applied, how long, and what the host knows of the program.
-/

namespace Unravel

/-- What takes the place of a marshalled value. -/
inductive MarshalMode where
  | literal | identifier
deriving DecidableEq, Inhabited

/-- The host's knowledge of a function of the program: the result for known arguments, if there
is one. -/
abbrev Primitive := List Value → Option Value

structure Dispatcher where
  name : String
  primitive : Primitive

structure Config where
  maxIterations : Nat
  stableIterations : Nat
  maxPhaseIterations : Nat
  constantFolding : Bool
  branchPruning : Bool
  deadCodeElimination : Bool
  functionInlining : Bool
  objectInlining : Bool
  binaryProxies : Bool
  constInlining : Bool
  arrayInlining : Bool
  callNormalization : Bool
  unflattening : Bool
  unicodeDecode : Bool
  aliasCollapsing : Bool
  objectReconstruction : Bool
  classReconstruction : Bool
  marshalFunction : Option String
  marshalMode : MarshalMode
  dispatchers : List Dispatcher
  protectedNames : List String
  verifyReferences : Bool

namespace Config

/-- Everything but the reconstruction of classes, which changes the form of declarations. -/
def default : Config where
  maxIterations := 5
  stableIterations := 2
  maxPhaseIterations := 15
  constantFolding := true
  branchPruning := true
  deadCodeElimination := true
  functionInlining := true
  objectInlining := true
  binaryProxies := true
  constInlining := true
  arrayInlining := true
  callNormalization := true
  unflattening := true
  unicodeDecode := true
  aliasCollapsing := true
  objectReconstruction := true
  classReconstruction := false
  marshalFunction := none
  marshalMode := .literal
  dispatchers := []
  protectedNames := []
  verifyReferences := false

/-- Only what leaves declarations and calls where they are. -/
def conservative : Config :=
  { default with
    deadCodeElimination := false
    functionInlining := false
    objectInlining := false
    binaryProxies := false
    constInlining := false
    arrayInlining := false
    aliasCollapsing := false
    objectReconstruction := false }

/-- Everything, and for longer. -/
def aggressive : Config :=
  { default with maxIterations := 20, stableIterations := 3, classReconstruction := true }

instance : Inhabited Config := ⟨default⟩

end Config

end Unravel
