import Retarget.Lowering.Basic

/-!
# Memory accesses and addresses
-/

namespace Retarget.Lowering.Scope

open Machine (LowType Operand GenericOp)

/-- Copies one piece through a new register. -/
def emitPieceCopy (dest source : Operand) (p : Piece) : Lower Unit := do
  let temp ← freshReg p.ty
  emit .load [temp, p.of source]
  emit .store [p.of dest, temp]

def emitCopy (c : Scope) (dest source : Operand) (bytes : Nat) : Lower Unit :=
  (pieces c.target.pointerBytes bytes).forM (emitPieceCopy dest source)

/-- Loads one piece into a new register. -/
def emitPieceLoad (location : Operand) (p : Piece) : Lower (Machine.RegId × Piece) := do
  let id ← freshId
  emit .load [.virtualReg id p.ty, p.of location]
  return (id, p)

/-- A load.  An aggregate that travels in registers is loaded into registers, and a larger one is
copied to a frame object. -/
def lowerLoad (c : Scope) (result : Ir.TempId) (ptr : Ir.Value) (ty : Ir.Ty) : Lower Unit := do
  if ty.isAggregate then
    let location ← c.location ptr c.target.pointerType
    if ← c.fitsRegisters ty then
      let parts ← (← c.piecesOf ty).mapM (emitPieceLoad location)
      setHome (.temp result) (.registers parts)
    else
      let bytes ← c.size ty
      let slot ← freshSlot bytes
      c.emitCopy (.stack slot 0 c.target.pointerType) location bytes
      setHome (.temp result) (.slot slot)
  else
    let location ← c.location ptr (c.lowType ty)
    let dest ← tempReg result (c.lowType ty)
    emit .load [dest, location]

def lowerStore (c : Scope) (value ptr : Ir.Value) : Lower Unit := do
  let ty := value.ty
  if ty.isAggregate then
    let location ← c.location ptr c.target.pointerType
    match (← get).homeRegisters? value with
    | some parts =>
      parts.forM fun (reg, p) => emit .store [p.of location, .virtualReg reg p.ty]
    | none =>
      let source ← c.location value c.target.pointerType
      let bytes ← c.size ty
      c.emitCopy location source bytes
  else
    let location ← c.location ptr (c.lowType ty)
    let value ← c.operand value
    emit .store [location, value]

/-! ## Addresses -/

def emitOffset (c : Scope) (dest base : Operand) (offset : Int) : Lower Unit :=
  if offset = 0 then emit .mov [dest, base]
  else emit .add [dest, base, .immediate offset c.target.offsetType]

/-- What the source of an address computation points to. -/
def pointee : Ir.Value → Ir.Ty
  | .global _ ty => ty
  | value => match value.ty with
    | .ptr ty => ty
    | ty => ty

/-- The type whose size an index counts. -/
def stride : Ir.Ty → Ir.Ty
  | .array _ element => element
  | ty => ty

/-- The index as a register of the width of an address. -/
def wideIndex (c : Scope) (index : Ir.Value) : Lower Operand := do
  let narrow ← c.operand index
  if narrow.size < c.target.pointerBits then
    let wide ← freshReg c.target.offsetType
    emit (if index.ty.isSigned then .sext else .zext) [wide, narrow]
    return wide
  else return narrow

def scaledIndex (c : Scope) (index : Ir.Value) (element : Int) : Lower Operand := do
  let wide ← c.wideIndex index
  if element = 1 then return wide
  else
    let product ← freshReg c.target.offsetType
    emit .mul [product, wide, .immediate element c.target.offsetType]
    return product

/-- The address of a member of a struct, or of an element; constant indices fold into an offset. -/
def lowerElementPtr (c : Scope) (result : Ir.TempId) (source index : Ir.Value) : Lower Unit := do
  let ty := pointee source
  let base ← c.operand source
  let dest ← tempReg result c.target.pointerType
  if ty.isStruct then
    match index with
    | .constant field _ =>
      let position := field.toInt
      let offset ← check (ty.fieldOffset? c.target.pointerBytes (Word.low 64 position))
      match offset with
      | some offset => c.emitOffset dest base (Word.signed 64 offset)
      | none => unsupported s!"no member {position} in {ty.text}"
    | _ => unsupported s!"struct member index {index.text} is not a constant in '{c.name}'"
  else
    let bytes ← c.size (stride ty)
    let element := Word.signed 64 bytes
    match index with
    | .constant n _ =>
      let offset ← check (Word.fitSigned (n.toInt * element))
      c.emitOffset dest base offset
    | _ =>
      let scaled ← c.scaledIndex index element
      emit .add [dest, base, scaled]

end Retarget.Lowering.Scope
