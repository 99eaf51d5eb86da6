import Unravel.Journal.Basic
import Unravel.Simplify.Config
import Unravel.Syntax.Operator

/-!
What outlives the application of a single rule: the journal, the names that have to stay, and
the table of keys whose functions stand for an operator.

A key that was once registered for two different operators stands for none ever after.
-/

namespace Unravel

/-- The operator that a function of two arguments applies, and whether to its arguments in
reverse. -/
structure OperatorProxy where
  operator : BinaryOp
  swapped : Bool
deriving DecidableEq

/-- The proxies by key, `none` for an ambiguous key, in the order of their registration. -/
structure OperatorTable where
  entries : List (String × Option OperatorProxy)

namespace OperatorTable

def empty : OperatorTable := ⟨[]⟩

/-- The entries after one more registration. -/
def insertEntry (key : String) (proxy : OperatorProxy) :
    List (String × Option OperatorProxy) → List (String × Option OperatorProxy)
  | [] => [(key, some proxy)]
  | (k, entry) :: rest =>
    if k = key then (k, if entry = some proxy then entry else none) :: rest
    else (k, entry) :: insertEntry key proxy rest

def register (table : OperatorTable) (key : String) (proxy : OperatorProxy) : OperatorTable :=
  ⟨insertEntry key proxy table.entries⟩

/-- The proxy that a key stands for. -/
def proxy? (table : OperatorTable) (key : String) : Option OperatorProxy :=
  (table.entries.lookup key).join

/-- The number of keys that stand for an operator. -/
def size (table : OperatorTable) : Nat := table.entries.countP fun (_, entry) => entry.isSome

@[simp] theorem proxy?_empty (key : String) : empty.proxy? key = none := rfl

theorem lookup_insertEntry (key : String) (proxy : OperatorProxy)
    (entries : List (String × Option OperatorProxy)) (other : String) :
    (insertEntry key proxy entries).lookup other =
      if other = key then
        some (match entries.lookup key with
          | none => some proxy
          | some entry => if entry = some proxy then entry else none)
      else entries.lookup other := by
  have lookup_ne {k : String} (h : other ≠ k) (entry : Option OperatorProxy)
      (rest : List (String × Option OperatorProxy)) :
      ((k, entry) :: rest).lookup other = rest.lookup other := by
    rw [List.lookup_cons, beq_false_of_ne h]
  induction entries with
  | nil =>
    by_cases h : other = key
    · simp [insertEntry, h]
    · simp [insertEntry, lookup_ne h, h]
  | cons first rest ih =>
    obtain ⟨k, entry⟩ := first
    by_cases hk : k = key
    · subst hk
      by_cases h : other = k
      · simp [insertEntry, h]
      · simp [insertEntry, lookup_ne h, h]
    · by_cases h : other = k
      · subst h
        simp [insertEntry, hk]
      · by_cases ho : other = key
        · subst ho
          simp [insertEntry, hk, lookup_ne h, ih]
        · simp [insertEntry, hk, lookup_ne h, ih, ho]

end OperatorTable

structure Context where
  journal : Journal
  config : Config
  operators : OperatorTable
  protectedNames : List String

namespace Context

def ofConfig (config : Config) : Context :=
  ⟨.empty, config, .empty, config.protectedNames⟩

def protect (c : Context) (name : String) : Context :=
  { c with protectedNames := name :: c.protectedNames }

def isProtected (c : Context) (name : String) : Bool := name ∈ c.protectedNames

instance : Inhabited Context := ⟨ofConfig default⟩

end Context

end Unravel
