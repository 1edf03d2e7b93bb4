import Retarget.Target.AArch64.Op
import Retarget.Target.Register
import Retarget.Target.Site

/-!
# AArch64 instruction selection

Selection runs on allocated code: every operand is a physical register, a constant, a label or a
symbol, and a memory operand is a base register followed by an offset.
-/

namespace Retarget.Target.AArch64

open Machine

/-- Values narrower than 32 bits live in 32-bit registers. -/
def widenRegisters (i : Instruction) : Instruction :=
  i.withOperands (i.operands.map fun o => if o.isPhysical && o.size < 32 then o.setWidth 32 else o)

/-- The register and constant forms of a three-address operation. -/
def binaryForms? : GenericOp → Option (Op × Option Op)
  | .add => some (.addR, some .addI)
  | .sub => some (.subR, some .subI)
  | .and => some (.andR, some .andI)
  | .or => some (.orrR, some .orrI)
  | .xor => some (.eorR, some .eorI)
  | .lsl => some (.lslR, some .lslI)
  | .lsr => some (.lsrR, some .lsrI)
  | .mul => some (.mul, none)
  | .div => some (.sdiv, none)
  | .divu => some (.udiv, none)
  | .addf => some (.fadd, none)
  | .subf => some (.fsub, none)
  | .mulf => some (.fmul, none)
  | .divf => some (.fdiv, none)
  | _ => none

def selectBinary (site : Site) (op : GenericOp) : Result Replacement := do
  let (inRegister, constant) ← orFail site.illegal (binaryForms? op)
  let second ← site.operand 2
  let selected ←
    if second.isPhysical then pure inRegister
    else if second.isImmediate || second.isGlobal then orFail site.illegal constant
    else throw site.illegal
  return ⟨site.instruction.setOpcode selected.opcode, []⟩

/-- Whether an instruction other than the one at `(b, k)` reads a register that shares storage with
`reg`. -/
def isReadElsewhere (rs : Registers) (f : Function) (b k : Nat) (reg : RegId) : Bool :=
  f.blocks.zipIdx.any fun (block, bi) =>
    block.instructions.zipIdx.any fun (instr, i) =>
      (bi, i) != (b, k) && (instr.uses.filterMap (·.reg?)).any (rs.overlaps · reg)

/-- A compare leaves its result in the flags; unless the branch right behind it is the only reader
of the destination, the destination is set from the flags. -/
def selectCompare (rs : Registers) (site : Site) (isFloat : Bool) : Result Replacement := do
  let relation ← orFail site.illegal site.instruction.relation
  let dest ← site.operand 0
  let second ← site.operand 2
  let selected ← match isFloat, second.isImmediate with
    | true, false => pure Op.fcmp
    | false, false => pure Op.cmpR
    | false, true => pure Op.cmpI
    | true, true => throw site.illegal
  let feedsBranch :=
    (site.next?.any fun next =>
      next.isGeneric .branch && (next.operand? 0).bind (·.reg?) == dest.reg?) &&
    dest.reg?.any fun reg => !isReadElsewhere rs site.function site.block site.stop reg
  let compare := (site.instruction.setOpcode selected.opcode).eraseOperand 0
  let set := ((Op.setOn relation).on [dest]).withRelation relation
  return ⟨compare, if feedsBranch then [] else [set]⟩

/-- Whether the instruction leaves a relation in the flags. -/
def setsFlags (i : Instruction) : Bool :=
  [Op.cmpR, Op.cmpI, Op.fcmp].any (i.opcode == ·.opcode) && i.relation.isSome

/-- Whether the instruction sets `cond` from flags that are still valid behind it. -/
def setsCondition (i : Instruction) (cond : Option RegId) : Bool :=
  (Relation.all.any fun r => i.opcode == (Op.setOn r).opcode) && i.relation.isSome &&
    cond.isSome && (i.operand? 0).bind (·.reg?) == cond

def selectBranch (site : Site) : Result Replacement :=
  let instr := site.instruction
  let cond := (instr.operand? 0).bind (·.reg?)
  let relation := (site.previous?.filter fun p => setsFlags p || setsCondition p cond).bind
    (·.relation)
  let falseTarget := if instr.operands.length == 3 then instr.operand? 2 else none
  let taken := if instr.operands.length == 3 then instr.eraseOperand 2 else instr
  let branch := match relation with
    | some r => (taken.setOpcode (Op.branchOn r).opcode).eraseOperand 0
    | none => taken.setOpcode Op.cbnz.opcode
  .ok ⟨branch, falseTarget.toList.map fun label => (Op.b.on [label]).addFlags { jump := true }⟩

/-- The `movk` that sets the 16-bit field at `shift`; a field of zeros needs none. -/
def moveField (dest : Operand) (value : Int) (shift : Nat) : List Instruction :=
  let field := value / Word.modulus shift % Word.modulus 16
  if field = 0 then [] else
    [Op.movk.on [dest, .immediate field dest.ty, .immediate shift dest.ty]]

/-- The shifts of the 16-bit fields of a `width`-bit word, without the lowest field. -/
def fieldShifts (width : Nat) : List Nat :=
  (List.range ((width + 15) / 16 - 1)).map fun k => 16 * (k + 1)

/-- A constant is moved at once if it is small, and by 16-bit fields otherwise; a word has no field
past its 64 bits. -/
def selectConstant (site : Site) : Result Replacement := do
  let dest ← site.operand 0
  let source ← site.operand 1
  let constant ← orFail site.illegal source.immediate?
  let width := max dest.size 32
  let value := if width = 32 then (Word.low 32 constant : Int) else constant
  let small := if width = 32 then Word.signed 32 value else value
  let move := site.instruction.setOpcode Op.movI.opcode
  if -65536 ≤ small ∧ small ≤ 65535 then
    return ⟨move.replaceOperand 1 (.immediate small dest.ty), []⟩
  else if 64 < width then
    throw .outOfRange
  else
    return ⟨move.replaceOperand 1 (.immediate (value % Word.modulus 16) dest.ty),
      (fieldShifts width).flatMap (moveField dest value)⟩

def isFloatReg (rs : Registers) (o : Operand) : Bool := o.reg?.any rs.isFloat

def selectMove (rs : Registers) (site : Site) : Result Replacement := do
  let source ← site.operand 1
  if source.isImmediate then selectConstant site
  else
    let dest ← site.operand 0
    let selected := if isFloatReg rs dest || isFloatReg rs source then Op.fmov else Op.movR
    return ⟨site.instruction.setOpcode selected.opcode, []⟩

def loadOp (bits : Nat) (isFloat : Bool) : Op :=
  if isFloat then .ldr else if bits ≤ 8 then .ldrb else if bits ≤ 16 then .ldrh else .ldr

def storeOp (bits : Nat) (isFloat : Bool) : Op :=
  if isFloat then .str else if bits ≤ 8 then .strb else if bits ≤ 16 then .strh else .str

def selectLoad (rs : Registers) (site : Site) : Result Replacement := do
  let dest ← site.operand 0
  return ⟨site.instruction.setOpcode (loadOp dest.size (isFloatReg rs dest)).opcode, []⟩

/-- The 32-bit view of a destination; writing it clears the upper half of the register. -/
def narrowTo32 (rs : Registers) (reg : RegId) (o : Operand) : Operand :=
  (o.setPhysical (rs.withWidth reg 32)).setWidth 32

def selectZextLoad (rs : Registers) (site : Site) : Result Replacement := do
  let dest ← site.operand 0
  let source ← site.operand 1
  let width ← orFail site.illegal source.immediate?
  let reg ← orFail site.illegal dest.reg?
  let load := (site.instruction.eraseOperand 1).setOpcode (loadOp (Word.low 32 width) false).opcode
  return ⟨load.modifyOperand 0 (narrowTo32 rs reg), []⟩

def selectStore (rs : Registers) (site : Site) : Result Replacement := do
  let value ← site.operand 0
  if value.isPhysical then
    return ⟨site.instruction.setOpcode (storeOp value.size (isFloatReg rs value)).opcode, []⟩
  else throw site.illegal

/-- Extensions to no more bits, and truncations to at least 32, are plain moves. -/
def selectConversion (rs : Registers) (site : Site) (op : GenericOp) : Result Replacement := do
  let dest ← site.operand 0
  let source ← site.operand 1
  let instr := site.instruction
  let bits := source.size
  match op with
  | .sext =>
    let selected := if dest.size ≤ bits then Op.movR
      else if bits ≤ 8 then .sxtb else if bits ≤ 16 then .sxth else .sxtw
    return ⟨instr.setOpcode selected.opcode, []⟩
  | .zext =>
    if dest.size ≤ bits then return ⟨instr.setOpcode Op.movR.opcode, []⟩
    let reg ← orFail site.illegal dest.reg?
    let selected := if bits ≤ 8 then Op.uxtb else if bits ≤ 16 then .uxth else .movR
    return ⟨(instr.modifyOperand 0 (narrowTo32 rs reg)).setOpcode selected.opcode, []⟩
  | .trunc =>
    if 32 ≤ dest.size then return ⟨instr.setOpcode Op.movR.opcode, []⟩
    let mask := Operand.immediate (Word.modulus dest.size - 1 : Nat) dest.ty
    return ⟨(instr.push mask).setOpcode Op.andI.opcode, []⟩
  | .itof => return ⟨instr.setOpcode Op.scvtf.opcode, []⟩
  | .ftoi => return ⟨instr.setOpcode Op.fcvtzs.opcode, []⟩
  | _ => throw site.illegal

/-- The native form before registers are widened. -/
def selectForm (rs : Registers) (site : Site) (op : GenericOp) : Result Replacement :=
  let instr := site.instruction
  match op with
  | .add | .sub | .and | .or | .xor | .lsl | .lsr | .mul | .div | .divu
  | .addf | .subf | .mulf | .divf => selectBinary site op
  | .cmp => selectCompare rs site false
  | .cmpf => selectCompare rs site true
  | .sext | .zext | .trunc | .itof | .ftoi => selectConversion rs site op
  | .loadImm => selectConstant site
  | .mov | .movf => selectMove rs site
  | .load => selectLoad rs site
  | .zextLoad => selectZextLoad rs site
  | .store => selectStore rs site
  | .stackAddress => .ok ⟨instr.setOpcode Op.addI.opcode, []⟩
  | .branch => selectBranch site
  | .jump => .ok ⟨instr.setOpcode Op.b.opcode, []⟩
  | .call => .ok ⟨instr.setOpcode Op.bl.opcode, []⟩
  | .ret => .ok ⟨(instr.setOpcode Op.ret.opcode).withOperands [], []⟩
  | .mod | .modu | .globalAddress => .error site.illegal

def select (rs : Registers) (site : Site) (op : GenericOp) : Result Replacement := do
  let form ← selectForm rs site op
  return { form with first := widenRegisters form.first }

/-! ## Touch-ups -/

def isGeneral (rs : Registers) (bits : Nat) (o : Operand) : Bool :=
  (o.reg?.bind rs.get?).any fun r => r.bits == bits && !r.isFloat

/-- A move or mask from a 64-bit into a 32-bit register reads the 32-bit view of its source. -/
def narrowSource (rs : Registers) (i : Instruction) : Instruction :=
  if (i.opcode == Op.movR.opcode || i.opcode == Op.andI.opcode) &&
      (i.operand? 0).any (isGeneral rs 32) then
    i.modifyOperand 1 fun source =>
      match source.kind with
      | .physicalReg reg => if isGeneral rs 64 source then narrowTo32 rs reg source else source
      | _ => source
  else i

def fixUp (rs : Registers) (f : Function) : Function := f.mapInstructions (narrowSource rs)

end Retarget.Target.AArch64
