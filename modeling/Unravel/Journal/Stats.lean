import Unravel.Journal.Basic

/-!
Figures drawn from a journal, and their summary in one line.
-/

namespace Unravel

/-- How often each kind of work was done, how often the schedule was run through, and how long
it took. -/
structure Stats where
  constantsFolded : Nat
  branchesPruned : Nat
  declarationsRemoved : Nat
  functionsInlined : Nat
  valuesInlined : Nat
  controlFlowRestructured : Nat
  dispatchersResolved : Nat
  aliasesCollapsed : Nat
  stringsDecoded : Nat
  structuresReconstructed : Nat
  callsNormalized : Nat
  warnings : Nat
  errors : Nat
  iterations : Nat
  milliseconds : Nat

namespace Stats

def ofJournal (j : Journal) (iterations milliseconds : Nat) : Stats where
  constantsFolded := j.count .constantFolded
  branchesPruned := j.count .branchPruned
  declarationsRemoved := j.count .declarationRemoved
  functionsInlined := j.count .functionInlined
  valuesInlined := j.count .propertyInlined + j.count .constantInlined
    + j.count .arrayIndexInlined + j.count .operatorInlined
  controlFlowRestructured := j.count .controlFlowRestructured
  dispatchersResolved := j.count .dispatcherResolved
  aliasesCollapsed := j.count .aliasCollapsed
  stringsDecoded := j.count .stringDecoded + j.count .marshalUnwrapped
  structuresReconstructed := j.count .objectReconstructed + j.count .classReconstructed
  callsNormalized := j.count .callNormalized
  warnings := j.count .warning
  errors := j.count .error
  iterations := iterations
  milliseconds := milliseconds

/-- A stretch of time: whole milliseconds below one second, and from there on seconds without
needless zeros. -/
def durationText (milliseconds : Nat) : String :=
  if milliseconds < 1000 then toString milliseconds ++ "ms"
  else
    let places := (toString (1000 + milliseconds % 1000)).toList.drop 1
    let places := (places.reverse.dropWhile (· = '0')).reverse
    let fraction := if places.isEmpty then "" else "." ++ String.ofList places
    toString (milliseconds / 1000) ++ fraction ++ "s"

/-- The figures with the words that follow them. -/
def labelled (s : Stats) : List (Nat × String) :=
  [(s.constantsFolded, "constants folded"),
    (s.branchesPruned, "branches pruned"),
    (s.declarationsRemoved, "declarations removed"),
    (s.functionsInlined, "functions inlined"),
    (s.valuesInlined, "values inlined"),
    (s.controlFlowRestructured, "loops unflattened"),
    (s.dispatchersResolved, "dispatcher calls"),
    (s.aliasesCollapsed, "aliases collapsed"),
    (s.stringsDecoded, "strings decoded"),
    (s.structuresReconstructed, "structures rebuilt"),
    (s.callsNormalized, "calls normalized"),
    (s.errors, "errors"),
    (s.warnings, "warnings")]

def summary (s : Stats) : String :=
  let parts := (s.labelled.filter fun (n, _) => n ≠ 0).map fun (n, label) =>
    toString n ++ " " ++ label
  let figures := if parts.isEmpty then "no transformations" else ", ".intercalate parts
  if s.milliseconds = 0 then figures
  else figures ++ " in " ++ durationText s.milliseconds
    ++ " (" ++ toString s.iterations ++ " iterations)"

end Stats

end Unravel
