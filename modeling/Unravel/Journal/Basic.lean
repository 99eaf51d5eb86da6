import Unravel.Journal.Event

/-!
The journal: all events in the order of their recording. `Journal.toList` is what each operation
is described by.
-/

namespace Unravel

structure Journal where
  events : Array Event
deriving Inhabited

namespace Journal

def empty : Journal := ⟨#[]⟩

def ofList (events : List Event) : Journal := ⟨events.toArray⟩

def toList (j : Journal) : List Event := j.events.toList

def size (j : Journal) : Nat := j.events.size

def isEmpty (j : Journal) : Bool := j.size = 0

def record (j : Journal) (e : Event) : Journal := ⟨j.events.push e⟩

def append (j k : Journal) : Journal := ⟨j.events ++ k.events⟩

@[simp] theorem toList_empty : empty.toList = [] := rfl

@[simp] theorem toList_ofList (events : List Event) : (ofList events).toList = events := rfl

@[simp] theorem toList_record (j : Journal) (e : Event) :
    (j.record e).toList = j.toList ++ [e] := by
  simp [record, toList]

@[simp] theorem toList_append (j k : Journal) : (j.append k).toList = j.toList ++ k.toList := by
  simp [append, toList]

def ofKind (j : Journal) (kind : EventKind) : List Event :=
  j.toList.filter fun e => e.kind = kind

def ofPass (j : Journal) (pass : String) : List Event :=
  j.toList.filter fun e => e.pass = some pass

def transformations (j : Journal) : List Event :=
  j.toList.filter fun e => e.kind.isTransformation

def diagnostics (j : Journal) : List Event :=
  j.toList.filter fun e => e.kind.isDiagnostic

def count (j : Journal) (kind : EventKind) : Nat := (j.ofKind kind).length

theorem count_record (j : Journal) (e : Event) (kind : EventKind) :
    (j.record e).count kind = j.count kind + if e.kind = kind then 1 else 0 := by
  by_cases h : e.kind = kind <;> simp [count, ofKind, h]

theorem count_append (j k : Journal) (kind : EventKind) :
    (j.append k).count kind = j.count kind + k.count kind := by
  simp [count, ofKind]

def hasAny (j : Journal) (kinds : List EventKind) : Bool :=
  j.toList.any fun e => e.kind ∈ kinds

/-- Whether something was changed. -/
def hasChanges (j : Journal) : Bool := !j.transformations.isEmpty

/-- The kinds that occur, and how often. -/
def counts (j : Journal) : List (EventKind × Nat) :=
  (EventKind.all.map fun kind => (kind, j.count kind)).filter fun (_, n) => n ≠ 0

/-- How often each kind of change occurs, in the order of these texts. -/
def summary (j : Journal) : String :=
  let texts := (j.counts.filter fun (kind, _) => kind.isTransformation).map fun (kind, n) =>
    toString n ++ " " ++ kind.description
  if j.isEmpty then "no events"
  else if texts.isEmpty then toString j.size ++ " events"
  else ", ".intercalate (texts.mergeSort (· ≤ ·))

end Journal

end Unravel
