import Retarget.Machine.Function

/-!
# Selection sites

The place of one instruction in a function while it is being selected.  The instructions it turns
into stand at and after that place and belong to the site, so the walk can continue behind them.
-/

namespace Retarget.Target

open Machine (Function Instruction)

/-- What an instruction turns into: one instruction in its place, and others after it. -/
structure Replacement where
  first : Instruction
  rest : List Instruction := []
deriving DecidableEq

/-- A position, the instruction there, and how many instructions were inserted after it. -/
structure Site where
  function : Function
  block : Nat
  index : Nat
  instruction : Instruction
  inserted : Nat := 0

namespace Site

/-- The site of an instruction that exists. -/
def at? (f : Function) (block index : Nat) : Result Site := do
  let i ← f.instructionAt block index
  return { function := f, block := block, index := index, instruction := i }

/-- The position behind everything that belongs to the site. -/
def stop (s : Site) : Nat := s.index + 1 + s.inserted

def previous? (s : Site) : Option Instruction :=
  if s.index = 0 then none else s.function.instruction? s.block (s.index - 1)

def next? (s : Site) : Option Instruction := s.function.instruction? s.block s.stop

/-- One more instruction at the end of the site. -/
def insertAfter (s : Site) (i : Instruction) : Site :=
  { s with
    function := s.function.modifyBlock s.block fun b => b.splice s.stop 0 [i]
    inserted := s.inserted + 1 }

/-- Another instruction in the place of the first one. -/
def setInstruction (s : Site) (i : Instruction) : Site :=
  { s with
    function := s.function.replaceAt s.block s.index [i]
    instruction := i }

/-- The site after its instruction turned into `r`. -/
def become (s : Site) (r : Replacement) : Site :=
  r.rest.foldl insertAfter (s.setInstruction r.first)

def illegal (s : Site) : Failure :=
  .illegalInstruction s.function.name s.instruction.text

/-- Operand `k` of the instruction; an instruction without it is illegal. -/
def operand (s : Site) (k : Nat) : Result Machine.Operand :=
  orFail s.illegal (s.instruction.operand? k)

end Site

end Retarget.Target
