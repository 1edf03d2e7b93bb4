import Retarget.Decimal.Layout
import Retarget.Ir.Module
import Retarget.Lowering.Chunk
import Retarget.Machine.Function
import Retarget.Target.Basic

/-!
# Values as machine operands

Lowering goes through a function once and keeps, for each value met so far, where it lives: a
temporary in a virtual register, a local in a frame object, an aggregate in a frame object or in one
virtual register for each of its pieces.
-/

namespace Retarget.Lowering

open Machine (RegId Slot LowType Operand GenericOp)

/-- What names an aggregate: a temporary or a parameter. -/
inductive AggregateName where
  | temp (id : Ir.TempId)
  | param (name : String)
deriving DecidableEq

def AggregateName.of? : Ir.Value → Option AggregateName
  | .temp id _ => some (.temp id)
  | .param name _ => some (.param name)
  | _ => none

/-- Where an aggregate lives. -/
inductive Home where
  /-- One virtual register for each piece. -/
  | registers (parts : List (RegId × Piece))
  | slot (slot : Slot)
deriving DecidableEq

/-- The state of the lowering of one function. -/
structure State where
  /-- The function so far, without the block that is being lowered. -/
  function : Machine.Function
  /-- The instructions of the block that is being lowered. -/
  code : Array Machine.Instruction := #[]
  temps : List (Ir.TempId × RegId) := []
  /-- Scalar parameters. -/
  params : List (String × RegId × LowType) := []
  /-- Locals. -/
  objects : List (Ir.TempId × Slot) := []
  aggregates : List (AggregateName × Home) := []

abbrev Lower := StateT State Result

/-- What stays the same while one function is lowered. -/
structure Scope where
  target : Target
  /-- The name of the function. -/
  name : String

/-! ## Steps -/

/-- A step that may fail, but does not touch the state. -/
def check {α : Type} (result : Result α) : Lower α := liftM result

def unsupported {α : Type} (detail : String) : Lower α := throw (.unsupported detail)

def emit (op : GenericOp) (operands : List Operand) : Lower Unit :=
  modify fun s => { s with code := s.code.push (.generic op operands) }

def freshId : Lower RegId := do
  let (id, function) ← check (← get).function.fresh
  modify fun s => { s with function := function }
  return id

def freshReg (ty : LowType) : Lower Operand := do
  let id ← freshId
  return .virtualReg id ty

/-- A new frame object; its size keeps 32 bits. -/
def freshSlot (bytes : Nat) : Lower Slot := do
  let (slot, function) ← check ((← get).function.addSlot (bytes % Word.modulus 32))
  modify fun s => { s with function := function }
  return slot

def freshParameter (ty : LowType) (isFloat isReturnBuffer : Bool) : Lower RegId := do
  let (id, function) ← check ((← get).function.addParameter ty isFloat isReturnBuffer)
  modify fun s => { s with function := function }
  return id

/-- The virtual register of a temporary, which is created at its first occurrence. -/
def tempReg (id : Ir.TempId) (ty : LowType) : Lower Operand := do
  match (← get).temps.lookup id with
  | some reg => return .virtualReg reg ty
  | none =>
    let reg ← freshId
    modify fun s => { s with temps := (id, reg) :: s.temps }
    return .virtualReg reg ty

def setHome (name : AggregateName) (home : Home) : Lower Unit :=
  modify fun s => { s with aggregates := (name, home) :: s.aggregates }

/-! ## Where values live -/

def State.homeSlot? (s : State) (name : AggregateName) : Option Slot :=
  match s.aggregates.lookup name with
  | some (.slot slot) => some slot
  | _ => none

def State.homeRegisters? (s : State) (value : Ir.Value) : Option (List (RegId × Piece)) :=
  match (AggregateName.of? value).bind fun name => s.aggregates.lookup name with
  | some (.registers parts) => some parts
  | _ => none

/-- The frame object that a value is the address of. -/
def State.frameObject? (s : State) : Ir.Value → Option Slot
  | .temp id _ => s.objects.lookup id <|> s.homeSlot? (.temp id)
  | .param name _ => s.homeSlot? (.param name)
  | _ => none

/-- Whether a value is the address of a frame object or a global. -/
def State.isAddressable (s : State) (value : Ir.Value) : Bool :=
  (s.frameObject? value).isSome || value.isGlobal

namespace Scope

def lowType (c : Scope) (ty : Ir.Ty) : LowType := Lowering.lowType c.target.pointerBits ty

def size (c : Scope) (ty : Ir.Ty) : Lower Nat := check (ty.size c.target.pointerBytes)

/-- Whether an aggregate travels in registers. -/
def fitsRegisters (c : Scope) (ty : Ir.Ty) : Lower Bool := do
  let bytes ← c.size ty
  let bits ← check (Word.fit 64 (bytes * 8))
  return bits ≤ c.target.convention.maxAggregateBits

def piecesOf (c : Scope) (ty : Ir.Ty) : Lower (List Piece) := do
  let bytes ← c.size ty
  return pieces c.target.pointerBytes bytes

/-- Puts the address of a frame object or a global into `dest`; other values have none. -/
def emitAddress (c : Scope) (dest : Operand) (value : Ir.Value) : Lower Unit := do
  match (← get).frameObject? value, value with
  | some slot, _ => emit .stackAddress [dest, .stack slot 0 c.target.pointerType]
  | none, .global name _ => emit .globalAddress [dest, .global name c.target.pointerType]
  | none, _ => return

/-- A new register with the address of a frame object or a global. -/
def addressOf (c : Scope) (value : Ir.Value) : Lower Operand := do
  let dest ← freshReg c.target.pointerType
  c.emitAddress dest value
  return dest

/-- The operand for a scalar use of a value. -/
def operand (c : Scope) (value : Ir.Value) : Lower Operand := do
  match value with
  | .constant n ty => return .immediate n.toInt (c.lowType ty)
  | .floatConstant x _ =>
    let number := Decimal.plain.text x
    unsupported s!"floating point constant {number} in '{c.name}'"
  | .global .. => c.addressOf value
  | .temp id ty =>
    if ((← get).frameObject? value).isSome then c.addressOf value
    else tempReg id (c.lowType ty)
  | .param name _ =>
    match (← get).params.lookup name with
    | some (id, ty) => return .parameter id ty
    | none =>
      if ((← get).frameObject? value).isSome then c.addressOf value
      else unsupported s!"unknown parameter '{name}' in '{c.name}'"

/-- The memory that a value points to, accessed at a type. -/
def location (c : Scope) (ptr : Ir.Value) (ty : LowType) : Lower Operand := do
  match (← get).frameObject? ptr with
  | some slot => return .stack slot 0 ty
  | none =>
    if ptr.isConstant then
      unsupported s!"memory access through constant address {ptr.text} in '{c.name}'"
    else
      let base ← c.operand ptr
      match base.unallocated? with
      | some reg => return .memory reg 0 ty
      | none => unsupported s!"memory access through {ptr.text} in '{c.name}'"

end Scope

end Retarget.Lowering
