import Unravel.Simplify.Alias
import Unravel.Simplify.ArrayRead
import Unravel.Simplify.Branch
import Unravel.Simplify.ClassForm
import Unravel.Simplify.ConstantUse
import Unravel.Simplify.Decoder
import Unravel.Simplify.DottedCall
import Unravel.Simplify.Escapes
import Unravel.Simplify.FlatLoop
import Unravel.Simplify.Folding
import Unravel.Simplify.Marshal
import Unravel.Simplify.ObjectLiteral
import Unravel.Simplify.Proxy
import Unravel.Simplify.TableEntry
import Unravel.Simplify.Unused

/-!
All rules of simplification, with their names.
-/

namespace Unravel

inductive Rule where
  | switchUnflattening
  | computedCall
  | dispatcherResolution (name : String) (primitive : Primitive)
  | marshalUnwrap (function : String) (mode : MarshalMode)
  | unicodeDecode
  | branchPruning
  | initializerChain
  | aliasCollapse
  | functionInlining
  | iifeInlining
  | objectMethodInlining
  | memberPropertyInlining
  | binaryProxy
  | constInlining
  | arrayIndexInlining
  | constantFolding
  | unusedDeclaration
  | objectReconstruction
  | classReconstruction

namespace Rule

def name : Rule → String
  | switchUnflattening => "switch-unflattening"
  | computedCall => "computed-call"
  | dispatcherResolution .. => "dispatcher-resolution"
  | marshalUnwrap .. => "marshal-unwrap"
  | unicodeDecode => "unicode-decode"
  | branchPruning => "branch-pruning"
  | initializerChain => "initializer-chain"
  | aliasCollapse => "alias-collapse"
  | functionInlining => "function-inlining"
  | iifeInlining => "iife-inlining"
  | objectMethodInlining => "object-method-inlining"
  | memberPropertyInlining => "member-property-inlining"
  | binaryProxy => "binary-proxy"
  | constInlining => "const-inlining"
  | arrayIndexInlining => "array-index-inlining"
  | constantFolding => "constant-folding"
  | unusedDeclaration => "unused-declaration"
  | objectReconstruction => "object-reconstruction"
  | classReconstruction => "class-reconstruction"

def description : Rule → String
  | switchUnflattening => "Restores statement order from switch-based control-flow flattening"
  | computedCall => "Rewrites obj[\"name\"]() calls to obj.name()"
  | dispatcherResolution .. =>
    "Evaluates dispatcher calls through a host primitive and removes forwarding aliases"
  | marshalUnwrap .. =>
    "Replaces variables initialized by marshal calls with the marshalled value"
  | unicodeDecode =>
    "Decodes \\uXXXX escapes left in string values and drops escaped raw spellings"
  | branchPruning => "Replaces if/ternary/while with a known test by the taken branch"
  | initializerChain => "Collapses var a = b chains in initializers to their origin"
  | aliasCollapse => "Rewrites aliased callees and member objects to the aliased name"
  | functionInlining => "Inlines calls of single-return function declarations"
  | iifeInlining => "Inlines immediately invoked single-return function expressions"
  | objectMethodInlining => "Inlines calls of single-return methods of object-literal tables"
  | memberPropertyInlining =>
    "Replaces reads of object-literal members with their literal or function values"
  | binaryProxy => "Replaces calls of operator proxy functions by the operator"
  | constInlining =>
    "Replaces uses of never-reassigned literal and alias bindings by their value"
  | arrayIndexInlining => "Replaces constant-index reads of literal arrays by the element"
  | constantFolding => "Replaces statically known expressions with literals"
  | unusedDeclaration => "Removes variable and function declarations that are never used"
  | objectReconstruction =>
    "Folds property assignments following an empty object literal into the literal"
  | classReconstruction =>
    "Rewrites constructor functions with prototype methods as class declarations"

/-- The rules that need no further knowledge. -/
def simple : List Rule :=
  [switchUnflattening, computedCall, unicodeDecode, branchPruning, initializerChain,
    aliasCollapse, functionInlining, iifeInlining, objectMethodInlining, memberPropertyInlining,
    binaryProxy, constInlining, arrayIndexInlining, constantFolding, unusedDeclaration,
    objectReconstruction, classReconstruction]

/-- Applies a rule everywhere once and says whether it changed anything. -/
def run : Rule → SimplifyM Bool
  | switchUnflattening => FlatLoop.run
  | computedCall => DottedCall.run
  | dispatcherResolution name primitive => Decoder.run name primitive
  | marshalUnwrap function mode => Marshal.run function mode
  | unicodeDecode => Escapes.run
  | branchPruning => Branch.run
  | initializerChain => Alias.runInitializers
  | aliasCollapse => Alias.runUses
  | functionInlining => Call.runNamed
  | iifeInlining => Call.runImmediate
  | objectMethodInlining => TableEntry.runCalls
  | memberPropertyInlining => TableEntry.runReads
  | binaryProxy => Proxy.run
  | constInlining => ConstantUse.run
  | arrayIndexInlining => ArrayRead.run
  | constantFolding => Folding.run
  | unusedDeclaration => Unused.run
  | objectReconstruction => ObjectLiteral.run
  | classReconstruction => ClassForm.run

end Rule

end Unravel
