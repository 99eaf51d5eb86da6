import Unravel.Text.Letter
import Unravel.Value.Compare

/-!
Properties and methods of known strings, numbers, booleans and arrays. Positions in strings are
counted in code units, and a result that would split a surrogate pair is not known.
-/

namespace Unravel.Method

/-- An argument that is present and not `undefined`. -/
def given? (args : List Value) (i : Nat) : Option Value :=
  args[i]?.filter fun a => !a.isUndefined

def textArg (args : List Value) (i : Nat) : String :=
  (args[i]?.map Value.toText).getD "undefined"

/-- A number cut to the range from zero to `length`, as a position. -/
def clamp (x : Float) (length : Nat) : Nat :=
  if x < 0.0 then 0
  else if x.isFinite then min (Double.truncToInt x).toNat length
  else length

def position (args : List Value) (i length default : Nat) : Nat :=
  match given? args i with
  | some a => clamp a.toInteger length
  | none => default

/-- A position argument that counts from the end when it is negative. -/
def relativePosition (args : List Value) (i length default : Nat) : Nat :=
  match given? args i with
  | some a =>
    let n := a.toInteger
    clamp (if n < 0.0 then Float.ofNat length + n else n) length
  | none => default

/-- The elements from one position up to another. -/
def between {α : Type} (xs : List α) (start stop : Nat) : List α := (xs.take stop).drop start

def index (position? : Option Nat) : Value :=
  .number ((position?.map Float.ofNat).getD (-1.0))

def unitsValue? (us : List UInt16) : Option Value := (Text.ofUnits? us).map .string

/-- A decimal index below 2⁶⁴, with leading zeros and a plus sign allowed. -/
def indexKey? (key : String) : Option Nat :=
  let digits := match key.toList with
    | '+' :: rest => rest
    | cs => cs
  if digits.isEmpty || !digits.all Decimal.isDigit then none
  else
    let n := Decimal.natOfDigits digits
    if n < 0x10000000000000000 then some n else none

/-- The property of a value. A missing element is `undefined`, and nothing is known of a
property that an object does not hold. -/
def property? (target : Value) (key : String) : Option Value :=
  match target with
  | .string s =>
    let us := Text.units s
    if key = "length" then some (.number (Float.ofNat us.length))
    else do
      let i ← indexKey? key
      match us[i]? with
      | some u => unitsValue? [u]
      | none => some .undefined
  | .array items =>
    if key = "length" then some (.number (Float.ofNat items.length))
    else do
      let i ← indexKey? key
      return items[i]?.getD .undefined
  | .object entries => entries.lookup key
  | _ => none

/-- The parts of a text between the occurrences of a separator, which is not empty. The text
that belongs to the current part stands in `part`, the last unit first, and `skip` counts the
units of a separator that are still to be passed over. -/
def splitUnits (separator : List UInt16) (part : List UInt16) :
    Nat → List UInt16 → List (List UInt16)
  | _, [] => [part.reverse]
  | skip + 1, _ :: rest => splitUnits separator part skip rest
  | 0, u :: rest =>
    if separator.isPrefixOf (u :: rest) then
      part.reverse :: splitUnits separator [] (separator.length - 1) rest
    else splitUnits separator (u :: part) 0 rest

/-- The parts of a string. An empty separator cuts between all code units. -/
def split? (s : String) (args : List Value) : Option Value := do
  let parts ← match given? args 0 with
    | none => pure [Value.string s]
    | some separator =>
      let us := Text.units s
      let separator := Text.units separator.toText
      let parts := if separator.isEmpty then us.map ([·]) else splitUnits separator [] 0 us
      parts.mapM unitsValue?
  return .array (match given? args 1 with
    | some limit => parts.take limit.toUInt32.toNat
    | none => parts)

/-- The longest string, in bytes, that repetition may produce. -/
def maxRepeat : Nat := 65536

/-- A string repeated; not known for counts without meaning and for results that are too long. -/
def repeat? (s : String) (args : List Value) : Option Value :=
  let count := (args[0]?.map Value.toInteger).getD 0.0
  if count < 0.0 || count.isInf then none
  else if s.isEmpty then some (.string "")
  else
    let count := (Double.truncToInt count).toNat
    if s.utf8ByteSize * count > maxRepeat then none
    else some (.string (String.join (List.replicate count s)))

/-- The first occurrence of a string replaced. Patterns that are no strings and replacements
with a `$`, which may be a reference, are not followed. -/
def replace? (s : String) (args : List Value) : Option Value := do
  let pattern := (← (← args[0]?).asString?).toList
  let replacement ← args[1]?
  if !replacement.isPrimitive || replacement.toText.contains '$' then none
  else
    let cs := s.toList
    match Text.find? cs pattern 0 with
    | some i =>
      some (.string (String.ofList
        (cs.take i ++ replacement.toText.toList ++ cs.drop (i + pattern.length))))
    | none => some (.string s)

def string? (s : String) (name : String) (args : List Value) : Option Value :=
  let us := Text.units s
  let length := us.length
  let needle := Text.units (textArg args 0)
  let unit? : Option UInt16 :=
    let at_ := (args[0]?.map Value.toInteger).getD 0.0
    if at_ < 0.0 || at_ ≥ Float.ofNat length then none else us[(Double.truncToInt at_).toNat]?
  match name with
  | "toString" | "valueOf" => some (.string s)
  | "charAt" =>
    match unit? with
    | some u => unitsValue? [u]
    | none => some (.string "")
  | "charCodeAt" => some (.number ((unit?.map fun u => Float.ofNat u.toNat).getD nan))
  | "indexOf" => some (index (Text.find? us needle (position args 1 length 0)))
  | "lastIndexOf" =>
    let limit := match args[1]?.map Value.toNumber with
      | some n => if n.isNaN then length else clamp n length
      | none => length
    some (index (Text.findLast? us needle limit))
  | "includes" => some (.bool (Text.find? us needle (position args 1 length 0)).isSome)
  | "startsWith" => some (.bool (needle.isPrefixOf (us.drop (position args 1 length 0))))
  | "endsWith" => some (.bool (needle.isSuffixOf (us.take (position args 1 length length))))
  | "slice" =>
    unitsValue? (between us (relativePosition args 0 length 0)
      (relativePosition args 1 length length))
  | "substring" =>
    let a := position args 0 length 0
    let b := position args 1 length length
    unitsValue? (between us (min a b) (max a b))
  | "substr" =>
    let start := relativePosition args 0 length 0
    unitsValue? ((us.drop start).take (position args 1 (length - start) (length - start)))
  | "split" => split? s args
  | "toUpperCase" => some (.string (Text.toUpper s))
  | "toLowerCase" => some (.string (Text.toLower s))
  | "trim" => some (.string (String.ofList (Text.trim s.toList)))
  | "concat" => some (.string (args.foldl (fun out a => out ++ a.toText) s))
  | "repeat" => repeat? s args
  | "replace" => replace? s args
  | _ => none

def number? (x : Float) (name : String) (args : List Value) : Option Value :=
  match name with
  | "toString" =>
    let radix := ((given? args 0).map Value.toInteger).getD 10.0
    if radix < 2.0 || radix > 36.0 then none
    else (Radix.text? x (Double.truncToInt radix).toNat).map .string
  | "toFixed" =>
    let places := (args[0]?.map Value.toInteger).getD 0.0
    if places < 0.0 || places > 100.0 then none
    else (Decimal.fixed? x (Double.truncToInt places).toNat).map .string
  | "valueOf" => some (.number x)
  | _ => none

/-- Whether a list holds an element with a property that may be unknown. The search ends at the
first element that has it, and at the first one of which it is unknown. -/
def findIndex? (p : Value → Option Bool) (i : Nat) : List Value → Option (Option Nat)
  | [] => some none
  | x :: rest => do if ← p x then some (some i) else findIndex? p (i + 1) rest

def sameValueZero? (x y : Value) : Option Bool :=
  match x, y with
  | .number a, .number b => some (a == b || (a.isNaN && b.isNaN))
  | _, _ => Value.strictEquals? x y

def joined (items : List Value) (separator : String) : Value :=
  .string (separator.intercalate (Value.itemTexts items))

def array? (items : List Value) (name : String) (args : List Value) : Option Value :=
  let needle := args[0]?.getD .undefined
  match name with
  | "join" => some (joined items (((given? args 0).map Value.toText).getD ","))
  | "toString" => some (joined items ",")
  | "indexOf" => (findIndex? (Value.strictEquals? · needle) 0 items).map index
  | "includes" => (findIndex? (sameValueZero? · needle) 0 items).map (.bool ·.isSome)
  | "slice" =>
    some (.array (between items (relativePosition args 0 items.length 0)
      (relativePosition args 1 items.length items.length)))
  | "concat" =>
    some (.array (args.foldl (fun out a => out ++ (a.asArray?.getD [a])) items))
  | "reverse" => some (.array items.reverse)
  | _ => none

def call? (receiver : Value) (name : String) (args : List Value) : Option Value :=
  match receiver with
  | .string s => string? s name args
  | .number x => number? x name args
  | .bool b => if name = "toString" then some (.string (Value.boolText b)) else none
  | .array items => array? items name args
  | _ => none

end Unravel.Method
