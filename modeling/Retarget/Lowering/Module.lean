import Retarget.Lowering.Function
import Retarget.Machine.Data

/-!
# Modules in machine form

A global becomes one directive for each scalar inside it, zeros for what has no value, and a quoted
text for a string.
-/

namespace Retarget.Lowering

open Machine (Data)

/-- Zeros for `bytes` bytes, if there are any. -/
def pushZeros (d : Data) (bytes : Nat) : Result Data :=
  if bytes = 0 then .ok d else d.push (.zeros bytes)

/-- One value for each of the sizes; where values are missing, zero. -/
def allocateAll (d : Data) : List Nat → List Int64 → Result Data
  | [], _ => .ok d
  | size :: sizes, values => do
    let d ← d.allocate size (match values.head? with
      | some v => v.toInt
      | none => 0)
    allocateAll d sizes values.tail

/-- The first scalar holds the value, and the others are zero. -/
def allocateFirst (d : Data) (value : Int64) : List Nat → Result Data
  | [] => .ok d
  | first :: rest => do
    let d ← d.allocate first value.toInt
    pushZeros d (rest.foldr (· + ·) 0)

def lowerGlobal (pointerBytes : Nat) (g : Ir.Global) : Result Data := do
  let d : Data := { name := g.name }
  let total ← g.ty.size pointerBytes
  let count ← g.ty.leafCount
  match g.initializer with
  | none => pushZeros d total
  | some (.int value) => allocateFirst d value (g.ty.leaves pointerBytes)
  | some (.list values) =>
    if count < values.length then
      throw (.unsupported
        s!"{values.length} initializer values for the {count} leaves of global '{g.name}'")
    allocateAll d (g.ty.leaves pointerBytes) values
  | some (.str text) =>
    let d ← d.push (.text text)
    pushZeros d (total - (text.utf8ByteSize + 1))

/-- The machine form of a module: the data of all its globals, and every function with a body. -/
def lowerModule (t : Target) (m : Ir.Module) : Result Machine.Module := do
  let globals ← m.globals.mapM (lowerGlobal t.pointerBytes)
  let functions ← (m.functions.filter fun f => !f.isDeclaration).mapM (lowerFunction t)
  return ⟨functions, globals⟩

end Retarget.Lowering
