import Unravel.Tree.Basic

/-!
Events: what was changed, found or reported while a program was worked on.
-/

namespace Unravel

inductive EventKind where
  | constantFolded
  | branchPruned
  | declarationRemoved
  | functionInlined
  | propertyInlined
  | operatorInlined
  | constantInlined
  | arrayIndexInlined
  | callNormalized
  | controlFlowRestructured
  | dispatcherResolved
  | aliasCollapsed
  | stringDecoded
  | marshalUnwrapped
  | objectReconstructed
  | classReconstructed
  | dispatcherIdentified
  | inlineCandidateIdentified
  | passCompleted
  | info
  | warning
  | error
deriving DecidableEq, Inhabited

namespace EventKind

/-- All kinds: first those of changes, then discoveries, and last what is only reported. -/
def all : List EventKind :=
  [constantFolded, branchPruned, declarationRemoved, functionInlined, propertyInlined,
    operatorInlined, constantInlined, arrayIndexInlined, callNormalized, controlFlowRestructured,
    dispatcherResolved, aliasCollapsed, stringDecoded, marshalUnwrapped, objectReconstructed,
    classReconstructed, dispatcherIdentified, inlineCandidateIdentified, passCompleted, info,
    warning, error]

def description : EventKind → String
  | constantFolded => "constant folded"
  | branchPruned => "branch pruned"
  | declarationRemoved => "declaration removed"
  | functionInlined => "function inlined"
  | propertyInlined => "property inlined"
  | operatorInlined => "operator inlined"
  | constantInlined => "constant inlined"
  | arrayIndexInlined => "array index inlined"
  | callNormalized => "call normalized"
  | controlFlowRestructured => "control flow restructured"
  | dispatcherResolved => "dispatcher resolved"
  | aliasCollapsed => "alias collapsed"
  | stringDecoded => "string decoded"
  | marshalUnwrapped => "marshal unwrapped"
  | objectReconstructed => "object reconstructed"
  | classReconstructed => "class reconstructed"
  | dispatcherIdentified => "dispatcher identified"
  | inlineCandidateIdentified => "inline candidate identified"
  | passCompleted => "pass completed"
  | info => "info"
  | warning => "warning"
  | error => "error"

/-- Whether an event of this kind says that the tree was changed. -/
def isTransformation : EventKind → Bool
  | dispatcherIdentified | inlineCandidateIdentified | passCompleted | info | warning | error =>
    false
  | _ => true

def isDiagnostic : EventKind → Bool
  | info | warning | error => true
  | _ => false

theorem mem_all (kind : EventKind) : kind ∈ all := by
  cases kind <;> decide

end EventKind

/-- An event, the node it is about and the pass it comes from. -/
structure Event where
  kind : EventKind
  message : String
  node : Option NodeId
  pass : Option String
deriving Inhabited

namespace Event

/-- An event that is about no node and comes from no pass. -/
def plain (kind : EventKind) (message : String) : Event := ⟨kind, message, none, none⟩

def text (e : Event) : String :=
  let place := match e.node with
    | some node => " at " ++ node.label
    | none => ""
  "[" ++ e.kind.description ++ "] " ++ e.message ++ place

end Event

end Unravel
