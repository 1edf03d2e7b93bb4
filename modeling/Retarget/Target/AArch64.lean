import Retarget.Target.AArch64.Legality
import Retarget.Target.AArch64.Registers
import Retarget.Target.AArch64.Selection
import Retarget.Target.Basic

/-!
# The AArch64 target
-/

namespace Retarget.Target

def aarch64 : Target where
  name := "aarch64"
  pointerBits := 64
  registers := AArch64.registers
  convention := AArch64.convention
  templates := AArch64.templates
  isLegal := AArch64.isLegal
  isExpandable := AArch64.isExpandable
  expand := AArch64.expand
  select := AArch64.select AArch64.registers
  fixUp := AArch64.fixUp AArch64.registers

end Retarget.Target
