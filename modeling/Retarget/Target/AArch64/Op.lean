import Retarget.Machine.Instruction
import Retarget.Target.Template

/-!
# AArch64 instructions
-/

namespace Retarget.Target.AArch64

open Machine (Flags Instruction Opcode Operand Relation)

/-- The native instructions in use, in the order of their numbers.  The suffix tells a second source
in a register (`R`) from a constant one (`I`). -/
inductive Op where
  | addR | addI | subR | subI | mul | sdiv | udiv
  | andR | andI | orrR | orrI | eorR | eorI | lslR | lslI | lsrR | lsrI
  | cmpR | cmpI
  | csetEq | csetNe | csetLt | csetGt | csetLe | csetGe | csetLo
  | sxtb | sxth | sxtw | uxtb | uxth
  | movI | movR | movk
  | fadd | fsub | fmul | fdiv | fmov | fcmp | scvtf | fcvtzs
  | adrp
  | ldr | ldrb | ldrh | str | strb | strh
  | bEq | bNe | bLt | bGt | bLe | bGe | bLo
  | b | cbnz | bl | ret
deriving DecidableEq

namespace Op

def all : List Op :=
  [.addR, .addI, .subR, .subI, .mul, .sdiv, .udiv,
    .andR, .andI, .orrR, .orrI, .eorR, .eorI, .lslR, .lslI, .lsrR, .lsrI,
    .cmpR, .cmpI, .csetEq, .csetNe, .csetLt, .csetGt, .csetLe, .csetGe, .csetLo,
    .sxtb, .sxth, .sxtw, .uxtb, .uxth, .movI, .movR, .movk,
    .fadd, .fsub, .fmul, .fdiv, .fmov, .fcmp, .scvtf, .fcvtzs, .adrp,
    .ldr, .ldrb, .ldrh, .str, .strb, .strh,
    .bEq, .bNe, .bLt, .bGt, .bLe, .bGe, .bLo, .b, .cbnz, .bl, .ret]

def number (op : Op) : Nat := all.idxOf op

def opcode (op : Op) : Opcode := .native op.number

def text : Op → String
  | addR => "add\t$1, $2, $3"
  | addI => "add\t$1, $2, #$3"
  | subR => "sub\t$1, $2, $3"
  | subI => "sub\t$1, $2, #$3"
  | mul => "mul\t$1, $2, $3"
  | sdiv => "sdiv\t$1, $2, $3"
  | udiv => "udiv\t$1, $2, $3"
  | andR => "and\t$1, $2, $3"
  | andI => "and\t$1, $2, #$3"
  | orrR => "orr\t$1, $2, $3"
  | orrI => "orr\t$1, $2, #$3"
  | eorR => "eor\t$1, $2, $3"
  | eorI => "eor\t$1, $2, #$3"
  | lslR => "lsl\t$1, $2, $3"
  | lslI => "lsl\t$1, $2, #$3"
  | lsrR => "lsr\t$1, $2, $3"
  | lsrI => "lsr\t$1, $2, #$3"
  | cmpR => "cmp\t$1, $2"
  | cmpI => "cmp\t$1, #$2"
  | csetEq => "cset\t$1, eq"
  | csetNe => "cset\t$1, ne"
  | csetLt => "cset\t$1, lt"
  | csetGt => "cset\t$1, gt"
  | csetLe => "cset\t$1, le"
  | csetGe => "cset\t$1, ge"
  | csetLo => "cset\t$1, lo"
  | sxtb => "sxtb\t$1, $2"
  | sxth => "sxth\t$1, $2"
  | sxtw => "sxtw\t$1, $2"
  | uxtb => "uxtb\t$1, $2"
  | uxth => "uxth\t$1, $2"
  | movI => "mov\t$1, #$2"
  | movR => "mov\t$1, $2"
  | movk => "movk\t$1, #$2, lsl #$3"
  | fadd => "fadd\t$1, $2, $3"
  | fsub => "fsub\t$1, $2, $3"
  | fmul => "fmul\t$1, $2, $3"
  | fdiv => "fdiv\t$1, $2, $3"
  | fmov => "fmov\t$1, $2"
  | fcmp => "fcmp\t$1, $2"
  | scvtf => "scvtf\t$1, $2"
  | fcvtzs => "fcvtzs\t$1, $2"
  | adrp => "adrp\t$1, $2"
  | ldr => "ldr\t$1, [$2, #$3]"
  | ldrb => "ldrb\t$1, [$2, #$3]"
  | ldrh => "ldrh\t$1, [$2, #$3]"
  | str => "str\t$1, [$2, #$3]"
  | strb => "strb\t$1, [$2, #$3]"
  | strh => "strh\t$1, [$2, #$3]"
  | bEq => "b.eq\t$1"
  | bNe => "b.ne\t$1"
  | bLt => "b.lt\t$1"
  | bGt => "b.gt\t$1"
  | bLe => "b.le\t$1"
  | bGe => "b.ge\t$1"
  | bLo => "b.lo\t$1"
  | b => "b\t$1"
  | cbnz => "cbnz\t$1, $2"
  | bl => "bl\t$1"
  | ret => "ret"

def flags : Op → Flags
  | ldr | ldrb | ldrh => { load := true }
  | str | strb | strh => { store := true }
  | bEq | bNe | bLt | bGt | bLe | bGe | bLo | b | cbnz => { jump := true }
  | bl => { call := true }
  | ret => { ret := true }
  | _ => {}

/-- The branch taken when the flags say that a relation holds. -/
def branchOn : Relation → Op
  | .eq => bEq
  | .ne => bNe
  | .lt => bLt
  | .gt => bGt
  | .le => bLe
  | .ge => bGe
  | .ltu => bLo

/-- The instruction that sets a register to whether a relation holds. -/
def setOn : Relation → Op
  | .eq => csetEq
  | .ne => csetNe
  | .lt => csetLt
  | .gt => csetGt
  | .le => csetLe
  | .ge => csetGe
  | .ltu => csetLo

def on (op : Op) (operands : List Operand) : Instruction := Instruction.native op.number operands

end Op

def templates : List Template :=
  Op.all.map fun op => { opcode := op.number, text := op.text, flags := op.flags }

end Retarget.Target.AArch64
