import Retarget.Machine.Instruction
import Retarget.Target.Template

/-!
# RV32IM instructions
-/

namespace Retarget.Target.Riscv

open Machine (Flags Instruction Opcode Operand)

/-- The native instructions in use, in the order of their numbers. -/
inductive Op where
  | add | addi | sub | mul | div | divu | rem | remu
  | and | andi | or | ori | xor | xori | sll | slli | srl | srli | srai
  | slt | slti | sltu | sltiu
  | li | mv | luiHi | addiLo
  | lb | lh | lw | sb | sh | sw
  | bnez | j | call | ret
deriving DecidableEq

namespace Op

def all : List Op :=
  [.add, .addi, .sub, .mul, .div, .divu, .rem, .remu,
    .and, .andi, .or, .ori, .xor, .xori, .sll, .slli, .srl, .srli, .srai,
    .slt, .slti, .sltu, .sltiu, .li, .mv, .luiHi, .addiLo,
    .lb, .lh, .lw, .sb, .sh, .sw, .bnez, .j, .call, .ret]

def number (op : Op) : Nat := all.idxOf op

def opcode (op : Op) : Opcode := .native op.number

def text : Op → String
  | add => "add\t$1, $2, $3"
  | addi => "addi\t$1, $2, $3"
  | sub => "sub\t$1, $2, $3"
  | mul => "mul\t$1, $2, $3"
  | div => "div\t$1, $2, $3"
  | divu => "divu\t$1, $2, $3"
  | rem => "rem\t$1, $2, $3"
  | remu => "remu\t$1, $2, $3"
  | and => "and\t$1, $2, $3"
  | andi => "andi\t$1, $2, $3"
  | or => "or\t$1, $2, $3"
  | ori => "ori\t$1, $2, $3"
  | xor => "xor\t$1, $2, $3"
  | xori => "xori\t$1, $2, $3"
  | sll => "sll\t$1, $2, $3"
  | slli => "slli\t$1, $2, $3"
  | srl => "srl\t$1, $2, $3"
  | srli => "srli\t$1, $2, $3"
  | srai => "srai\t$1, $2, $3"
  | slt => "slt\t$1, $2, $3"
  | slti => "slti\t$1, $2, $3"
  | sltu => "sltu\t$1, $2, $3"
  | sltiu => "sltiu\t$1, $2, $3"
  | li => "li\t$1, $2"
  | mv => "mv\t$1, $2"
  | luiHi => "lui\t$1, %hi($2)"
  | addiLo => "addi\t$1, $2, %lo($3)"
  | lb => "lb\t$1, $3($2)"
  | lh => "lh\t$1, $3($2)"
  | lw => "lw\t$1, $3($2)"
  | sb => "sb\t$1, $3($2)"
  | sh => "sh\t$1, $3($2)"
  | sw => "sw\t$1, $3($2)"
  | bnez => "bnez\t$1, $2"
  | j => "j\t$1"
  | call => "call\t$1"
  | ret => "ret"

def flags : Op → Flags
  | lb | lh | lw => { load := true }
  | sb | sh | sw => { store := true }
  | bnez | j => { jump := true }
  | call => { call := true }
  | ret => { ret := true }
  | _ => {}

def on (op : Op) (operands : List Operand) : Instruction := Instruction.native op.number operands

end Op

def templates : List Template :=
  Op.all.map fun op => { opcode := op.number, text := op.text, flags := op.flags }

end Retarget.Target.Riscv
