import Unravel.Simplify.Config

/-!
Ready-made primitives, for hosts whose decoding functions are simple.
-/

namespace Unravel.Primitive

/-- No result at all. -/
def none_ : Primitive := fun _ => none

def sum : Primitive := fun args =>
  some (.number (args.foldl (fun total v => total + v.toNumber) 0.0))

/-- The arguments as strings, joined. -/
def join : Primitive := fun args => some (.string (String.join (args.map Value.toText)))

def first : Primitive := List.head?

def collect : Primitive := fun args => some (.array args)

def describe : Primitive := fun args =>
  some (.object [("n", .number (Float.ofNat args.length)), ("a-b", args.head?.getD .null),
    ("class", .undefined)])

/-- The first argument as a number, with the opposite sign. -/
def negate : Primitive := fun args => args.head?.map fun v => .number (-v.toNumber)

def typeName : Primitive := fun args => args.head?.map fun v => .string v.typeName

def half : Primitive := fun args => do
  let x ← (← args.head?).asNumber?
  if Double.rem x 2.0 == 0.0 then some (.number (x / 2.0)) else none

/-- The entry of a table at the first argument less an offset. -/
def table (entries : List Value) (offset : Float) : Primitive := fun args => do
  let index := (← args.head?).toNumber - offset
  if !Double.isIntegral index || index < 0.0 then none
  else entries[(Double.truncToInt index).toNat]?

end Unravel.Primitive
