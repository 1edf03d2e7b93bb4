import Retarget.Lowering.Call

/-!
# Functions in machine form

Each instruction becomes one generic machine instruction or a short sequence.  Blocks keep their
names and their order.
-/

namespace Retarget.Lowering

open Machine (LowType Operand GenericOp)

def binaryOp : Ir.BinaryOp → GenericOp
  | .add => .add
  | .sub => .sub
  | .mul => .mul
  | .div => .div
  | .divu => .divu
  | .mod => .mod
  | .modu => .modu
  | .and => .and
  | .or => .or
  | .xor => .xor
  | .shl => .lsl
  | .shr => .lsr
  | .fadd => .addf
  | .fsub => .subf
  | .fmul => .mulf
  | .fdiv => .divf

/-- The opcode of a conversion to a type. -/
def unaryOp (ty : Ir.Ty) : Ir.UnaryOp → GenericOp
  | .sext => .sext
  | .zext => .zext
  | .trunc => .trunc
  | .ftoi => .ftoi
  | .itof => .itof
  | .bitcast => if ty.isFloat then .movf else .mov

def relation : Ir.Relation → Machine.Relation
  | .eq => .eq
  | .ne => .ne
  | .lt => .lt
  | .gt => .gt
  | .le => .le
  | .ge => .ge

namespace Scope

/-- A compare; the type of the left value says of which kind. -/
def lowerCompare (c : Scope) (result : Ir.TempId) (rel : Ir.Relation) (lhs rhs : Ir.Value) :
    Lower Unit := do
  let op := if lhs.ty.isFloat then GenericOp.cmpf else .cmp
  let lhs ← c.operand lhs
  let rhs ← c.operand rhs
  let dest ← tempReg result (.integer 1)
  let instr := (Machine.Instruction.generic op [dest, lhs, rhs]).withRelation (relation rel)
  modify fun s => { s with code := s.code.push instr }

/-- A jump, unless the target is the next block anyway. -/
def lowerJumpUnless (next : Option String) (target : Option String) : Lower Unit :=
  match target.filter fun t => some t != next with
  | some target => emit .jump [.label target]
  | none => return

/-- A conditional branch before the block `next`.  A constant condition picks its successor now. -/
def lowerBranch (c : Scope) (condition : Ir.Value) (trueTarget : String)
    (falseTarget next : Option String) : Lower Unit := do
  match condition with
  | .constant n _ => lowerJumpUnless next (if n != 0 then some trueTarget else falseTarget)
  | _ =>
    let condition ← c.operand condition
    let otherwise := (falseTarget.filter fun t => some t != next).toList.map Operand.label
    emit .branch (condition :: .label trueTarget :: otherwise)

/-- One instruction of a block that stands before the block `next`. -/
def lowerInstruction (c : Scope) (next : Option String) : Ir.Instruction → Lower Unit
  | .binary result op lhs rhs ty => do
    let lhs ← c.operand lhs
    let rhs ← c.operand rhs
    let dest ← tempReg result (c.lowType ty)
    emit (binaryOp op) [dest, lhs, rhs]
  | .unary result op operand ty => do
    let source ← c.operand operand
    let dest ← tempReg result (c.lowType ty)
    emit (unaryOp ty op) [dest, source]
  | .compare result rel lhs rhs => c.lowerCompare result rel lhs rhs
  | .stackAlloc result _ ty => do
    let bytes ← c.size ty
    let slot ← freshSlot bytes
    modify fun s => { s with objects := (result, slot) :: s.objects }
  | .load result ptr ty => c.lowerLoad result ptr ty
  | .store value ptr => c.lowerStore value ptr
  | .elementPtr result source index _ => c.lowerElementPtr result source index
  | .memCopy dest source bytes => do
    let dest ← c.location dest c.target.pointerType
    let source ← c.location source c.target.pointerType
    c.emitCopy dest source bytes.toNat
  | .call result callee args ty returnBuffer =>
    c.lowerCall result callee args ty (returnBuffer.map (·.toNat))
  | .jump target => emit .jump [.label target]
  | .branch condition trueTarget falseTarget =>
    c.lowerBranch condition trueTarget falseTarget next
  | .ret value => c.lowerReturn value

/-! ## Parameters -/

def setParameter (name : String) (id : Machine.RegId) (ty : LowType) : Lower Unit :=
  modify fun s => { s with params := (name, id, ty) :: s.params }

/-- One parameter.  An aggregate arrives as one machine parameter for each piece and is kept in a
frame object, where its members have addresses. -/
def lowerParameter (c : Scope) (p : Ir.Parameter) : Lower Unit := do
  if p.isReturnBuffer then
    let id ← freshParameter c.target.pointerType false true
    setParameter p.name id c.target.pointerType
  else if p.ty.isAggregate then
    if !(← c.fitsRegisters p.ty) then
      unsupported
        s!"aggregate parameter '{p.name}' of '{c.name}' is too large to pass in registers"
    let bytes ← c.size p.ty
    let slot ← freshSlot bytes
    let base := Operand.stack slot 0 c.target.pointerType
    (← c.piecesOf p.ty).forM fun piece => do
      let id ← freshParameter piece.ty false false
      emit .store [piece.of base, .parameter id piece.ty]
    setHome (.param p.name) (.slot slot)
  else
    let ty := c.lowType p.ty
    let id ← freshParameter ty p.ty.isFloat false
    setParameter p.name id ty

/-! ## Blocks -/

/-- Closes the current block under a name. -/
def closeBlock (name : String) : Lower Unit :=
  modify fun s =>
    { s with
      function := { s.function with
        blocks := s.function.blocks ++ [⟨name, s.code.toList⟩] }
      code := #[] }

def lowerBlocks (c : Scope) : List Ir.Block → Lower Unit
  | [] => return
  | b :: rest => do
    b.instructions.forM (c.lowerInstruction (rest.head?.map (·.name)))
    closeBlock b.name
    c.lowerBlocks rest

end Scope

def lowerFunction (t : Target) (f : Ir.Function) : Result Machine.Function := do
  let c : Scope := ⟨t, f.name⟩
  let body : Lower Unit := do
    f.parameters.forM c.lowerParameter
    c.lowerBlocks f.blocks
  let ((), s) ← body.run { function := { name := f.name } }
  return s.function

end Retarget.Lowering
