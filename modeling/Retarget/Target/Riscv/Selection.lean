import Retarget.Target.Riscv.Op
import Retarget.Target.Site
import Retarget.Word

/-!
# RV32 instruction selection

Selection runs on allocated code and makes no new registers; sequences of several instructions use
the destination register for what is in between.
-/

namespace Retarget.Target.Riscv

open Machine

/-- A left shift of `source` into `dest`, and a right shift back by the same amount. -/
def shiftPair (dest source : Operand) (amount : Nat) (right : Op) : Replacement :=
  let places := Operand.immediate amount dest.ty
  ⟨Op.slli.on [dest, source, places], [right.on [dest, dest, places]]⟩

/-- The register and constant forms of a three-address operation. -/
def binaryForms? : GenericOp → Option (Op × Option Op)
  | .add => some (.add, some .addi)
  | .sub => some (.sub, some .addi)
  | .and => some (.and, some .andi)
  | .or => some (.or, some .ori)
  | .xor => some (.xor, some .xori)
  | .lsl => some (.sll, some .slli)
  | .lsr => some (.srl, some .srli)
  | .mul => some (.mul, none)
  | .div => some (.div, none)
  | .divu => some (.divu, none)
  | .mod => some (.rem, none)
  | .modu => some (.remu, none)
  | _ => none

/-- A subtraction of a constant adds its inverse. -/
def selectBinary (site : Site) (op : GenericOp) : Result Replacement := do
  let (inRegister, constant) ← orFail site.illegal (binaryForms? op)
  let second ← site.operand 2
  if second.isPhysical then return ⟨site.instruction.setOpcode inRegister.opcode, []⟩
  let imm ← orFail site.illegal second.immediate?
  let selected ← orFail site.illegal constant
  let instr := site.instruction.setOpcode selected.opcode
  if op = .sub then
    let negated ← Word.fitSigned (-imm)
    return ⟨instr.modifyOperand 2 (·.setImmediate negated), []⟩
  else return ⟨instr, []⟩

def selectCompare (site : Site) : Result Replacement := do
  let second ← site.operand 2
  let selected ← match site.instruction.relation, second.isImmediate with
    | some .lt, false => pure Op.slt
    | some .lt, true => pure Op.slti
    | some .ltu, false => pure Op.sltu
    | some .ltu, true => pure Op.sltiu
    | _, _ => throw site.illegal
  return ⟨site.instruction.setOpcode selected.opcode, []⟩

/-- A conversion keeps the low bits of its source: a mask does for few bits, a pair of shifts for
more or for the sign, and a move if all bits stay. -/
def selectConversion (site : Site) (op : GenericOp) : Result Replacement := do
  let dest ← site.operand 0
  let source ← site.operand 1
  let destBits := min dest.size 32
  let sourceBits := min source.size 32
  let kept := if op = .trunc then destBits else sourceBits
  if 32 ≤ kept || (op != .trunc && destBits ≤ sourceBits) then
    return ⟨site.instruction.setOpcode Op.mv.opcode, []⟩
  else if op = .sext then
    return shiftPair dest source (32 - kept) .srai
  else if kept ≤ 11 then
    return ⟨Op.andi.on [dest, source, .immediate (Word.modulus kept - 1 : Nat) dest.ty], []⟩
  else
    return shiftPair dest source (32 - kept) .srli

def loadOp (bits : Nat) : Op := if bits ≤ 8 then .lb else if bits ≤ 16 then .lh else .lw

def storeOp (bits : Nat) : Op := if bits ≤ 8 then .sb else if bits ≤ 16 then .sh else .sw

/-- The upper and the lower part of the address of a symbol. -/
def selectGlobalAddress (site : Site) : Result Replacement := do
  let dest ← site.operand 0
  let symbol ← site.operand 1
  if symbol.isGlobal then
    return ⟨Op.luiHi.on [dest, symbol], [Op.addiLo.on [dest, dest, symbol]]⟩
  else throw site.illegal

def selectBranch (site : Site) : Result Replacement :=
  let instr := site.instruction
  if instr.operands.length = 3 then
    .ok ⟨(instr.eraseOperand 2).setOpcode Op.bnez.opcode,
      (instr.operand? 2).toList.map fun label => (Op.j.on [label]).addFlags { jump := true }⟩
  else .ok ⟨instr.setOpcode Op.bnez.opcode, []⟩

def select (site : Site) (op : GenericOp) : Result Replacement := do
  let instr := site.instruction
  match op with
  | .add | .sub | .and | .or | .xor | .lsl | .lsr | .mul | .div | .divu | .mod | .modu =>
    selectBinary site op
  | .cmp => selectCompare site
  | .sext | .zext | .trunc => selectConversion site op
  | .loadImm => return ⟨instr.setOpcode Op.li.opcode, []⟩
  | .mov =>
    let source ← site.operand 1
    return ⟨instr.setOpcode (if source.isImmediate then Op.li else Op.mv).opcode, []⟩
  | .load =>
    let dest ← site.operand 0
    return ⟨instr.setOpcode (loadOp dest.size).opcode, []⟩
  | .store =>
    let value ← site.operand 0
    return ⟨instr.setOpcode (storeOp value.size).opcode, []⟩
  | .stackAddress => return ⟨instr.setOpcode Op.addi.opcode, []⟩
  | .globalAddress => selectGlobalAddress site
  | .branch => selectBranch site
  | .jump => return ⟨instr.setOpcode Op.j.opcode, []⟩
  | .call => return ⟨instr.setOpcode Op.call.opcode, []⟩
  | .ret => return ⟨(instr.setOpcode Op.ret.opcode).withOperands [], []⟩
  | .addf | .subf | .mulf | .divf | .cmpf | .ftoi | .itof | .movf | .zextLoad =>
    throw site.illegal

end Retarget.Target.Riscv
