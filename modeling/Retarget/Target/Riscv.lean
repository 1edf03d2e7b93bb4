import Retarget.Target.Basic
import Retarget.Target.Riscv.Legality
import Retarget.Target.Riscv.Selection

/-!
# The RV32 target
-/

namespace Retarget.Target

def riscv32 : Target where
  name := "riscv32"
  pointerBits := 32
  registers := Riscv.registers
  convention := Riscv.convention
  templates := Riscv.templates
  isLegal := Riscv.isLegal
  isExpandable := Riscv.isExpandable
  expand := Riscv.expand
  select := Riscv.select
  fixUp := id

end Retarget.Target
