import Retarget.Lowering.Memory

/-!
# Calls and returns

Arguments and results move through the registers that the calling convention names: scalars one by
one, aggregates piece by piece in consecutive registers.
-/

namespace Retarget.Lowering

open Machine (RegId LowType Operand GenericOp)

/-- What a call puts into one argument register. -/
inductive Argument where
  | copy (source : Operand)
  /-- The address of a frame object or a global. -/
  | address (value : Ir.Value)

/-- An argument and the register it goes to. -/
structure Placed where
  dest : Operand
  argument : Argument

/-- How many argument registers of each kind are in use. -/
structure Cursor where
  next : Nat := 0
  nextFloat : Nat := 0

/-- The opcode that moves a value of a type between registers. -/
def moveOp (ty : LowType) : GenericOp := if ty.isFloat then .movf else .mov

/-- Moves or loads `source` into `dest`. -/
def emitInto (dest source : Operand) : Lower Unit :=
  emit (if source.isMemory || source.isStack then .load else moveOp dest.ty) [dest, source]

def State.readsParameter (s : State) (o : Operand) : Bool :=
  o.unallocated?.any fun reg => s.function.params.any (·.id == reg)

/-- A source that reads an incoming parameter is copied into a new register, because the register of
the parameter may be bound for another argument of the same call. -/
def stage (source : Operand) (ty : LowType) : Lower Operand := do
  if (← get).readsParameter source then
    let staged ← freshReg ty
    emitInto staged source
    return staged
  else return source

namespace Scope

/-- The view of a full-width register that fits a type. -/
def physical (c : Scope) (root : RegId) (ty : LowType) : Operand :=
  .physicalReg (c.target.registers.withWidth root ty.bits) ty

/-- The pieces of an aggregate, each with the register it travels in. -/
def aggregateParts (c : Scope) (value : Ir.Value) (registers : List RegId) :
    Lower (List (Operand × Operand)) := do
  let ty := value.ty
  let chunks ← c.piecesOf ty
  if registers.length < chunks.length then
    unsupported s!"struct {ty.text} needs {chunks.length} registers in '{c.name}'"
  match (← get).homeRegisters? value with
  | some parts =>
    return (parts.zip registers).map fun ((reg, p), root) =>
      (c.physical root p.ty, .virtualReg reg p.ty)
  | none =>
    let location ← c.location value c.target.pointerType
    return (chunks.zip registers).map fun (p, root) => (c.physical root p.ty, p.of location)

/-! ## Arguments -/

/-- The argument that holds the address of the caller's buffer. -/
def placeReturnBuffer (c : Scope) (arg : Ir.Value) : Lower Placed := do
  let dest := c.physical c.target.registers.returnBuffer c.target.pointerType
  if (← get).isAddressable arg then return ⟨dest, .address arg⟩
  else
    let source ← c.operand arg
    let source ← stage source dest.ty
    return ⟨dest, .copy source⟩

/-- An aggregate argument, in the next registers. -/
def placeAggregate (c : Scope) (callee : String) (index : Nat) (arg : Ir.Value) (cursor : Cursor) :
    Lower (List Placed × Cursor) := do
  if !(← c.fitsRegisters arg.ty) then
    unsupported
      s!"aggregate argument {index} of call to '{callee}' is too large to pass in registers"
  let parts ← c.aggregateParts arg (c.target.convention.arguments.drop cursor.next)
  let placed ← parts.mapM fun (dest, source) => do
    let source ← stage source dest.ty
    return (⟨dest, .copy source⟩ : Placed)
  return (placed, { cursor with next := cursor.next + parts.length })

/-- A scalar argument, in the next register of its kind. -/
def placeScalar (c : Scope) (callee : String) (arg : Ir.Value) (cursor : Cursor) :
    Lower (Placed × Cursor) := do
  let ty := c.lowType arg.ty
  let isFloat := arg.ty.isFloat
  let position := if isFloat then cursor.nextFloat else cursor.next
  let cursor := if isFloat then { cursor with nextFloat := cursor.nextFloat + 1 }
    else { cursor with next := cursor.next + 1 }
  let root ← check (orFail (.unsupported s!"too many arguments in call to '{callee}'")
    (c.target.convention.argumentsOf isFloat)[position]?)
  let dest := c.physical root ty
  if arg.ty.isPointer && (← get).isAddressable arg then return (⟨dest, .address arg⟩, cursor)
  else
    let source ← c.operand arg
    let source ← stage source ty
    return (⟨dest, .copy source⟩, cursor)

/-- Chooses a register for every argument.  Incoming parameters are read here, before any argument
register is written, so arguments may be any permutation of them. -/
def placeArguments (c : Scope) (callee : String) (returnBuffer : Option Nat) :
    List (Ir.Value × Nat) → Cursor → Lower (List Placed)
  | [], _ => return []
  | (arg, index) :: rest, cursor => do
    if returnBuffer == some index then
      let placed ← c.placeReturnBuffer arg
      return placed :: (← c.placeArguments callee returnBuffer rest cursor)
    else if arg.ty.isAggregate then
      let (placed, cursor) ← c.placeAggregate callee index arg cursor
      return placed ++ (← c.placeArguments callee returnBuffer rest cursor)
    else
      let (placed, cursor) ← c.placeScalar callee arg cursor
      return placed :: (← c.placeArguments callee returnBuffer rest cursor)

/-- Writes one argument register. -/
def emitPlaced (c : Scope) (p : Placed) : Lower Unit :=
  match p.argument with
  | .copy source => emitInto p.dest source
  | .address value => c.emitAddress p.dest value

/-! ## Results -/

/-- Stores the pieces of an aggregate result to a new frame object. -/
def receiveAggregate (c : Scope) (callee : String) (result : Ir.TempId) (ty : Ir.Ty) :
    Lower Unit := do
  if !(← c.fitsRegisters ty) then
    unsupported s!"struct result of '{callee}' is too large to return in registers"
  let bytes ← c.size ty
  let slot ← freshSlot bytes
  let base := Operand.stack slot 0 c.target.pointerType
  let chunks ← c.piecesOf ty
  (chunks.zip c.target.convention.results).forM fun (p, root) =>
    emit .store [p.of base, c.physical root p.ty]
  setHome (.temp result) (.slot slot)

/-- Moves a scalar result to the register of its temporary. -/
def receiveScalar (c : Scope) (result : Ir.TempId) (ty : Ir.Ty) : Lower Unit := do
  let low := c.lowType ty
  let root ← check (orFail
    (.unsupported s!"no return register for {ty.text} on {c.target.name}")
    (c.target.convention.resultsOf ty.isFloat).head?)
  let dest ← tempReg result low
  emit (moveOp low) [dest, c.physical root low]

def lowerCall (c : Scope) (result : Option Ir.TempId) (callee : String) (args : List Ir.Value)
    (ty : Ir.Ty) (returnBuffer : Option Nat) : Lower Unit := do
  modify fun s => { s with function := { s.function with isCaller := true } }
  let placed ← c.placeArguments callee returnBuffer args.zipIdx {}
  placed.forM c.emitPlaced
  emit .call [.function callee]
  match result with
  | none => return
  | some result =>
    if ty.isAggregate then c.receiveAggregate callee result ty
    else c.receiveScalar result ty

def lowerReturn (c : Scope) : Option Ir.Value → Lower Unit
  | none => emit .ret []
  | some value => do
    let ty := value.ty
    if ty.isAggregate then
      if !(← c.fitsRegisters ty) then
        unsupported s!"struct result of '{c.name}' is too large to return in registers"
      let parts ← c.aggregateParts value c.target.convention.results
      parts.forM fun (dest, source) => emitInto dest source
      emit .ret []
    else
      let operand ← c.operand value
      if operand.isImmediate then
        let root ← check (orFail (.unsupported s!"no return register on {c.target.name}")
          c.target.convention.results.head?)
        emit .loadImm [c.physical root operand.ty, operand]
        emit .ret []
      else emit .ret [operand]

end Scope

end Retarget.Lowering
