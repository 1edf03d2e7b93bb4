import Retarget.Target.Convention
import Retarget.Target.Register

/-!
# RV32 registers and calling convention

There are 32 integer registers of one class, numbered by index and printed by the name that the
calling convention gives them.
-/

namespace Retarget.Target.Riscv

open Machine (RegId RegClass)

def zero : RegId := 0

def ra : RegId := 1

def sp : RegId := 2

def t6 : RegId := 31

def gpr : RegClass := ⟨0⟩

/-- The names of the calling convention, by number. -/
def conventionNames : List String :=
  ["zero", "ra", "sp", "gp", "tp", "t0", "t1", "t2", "s0", "s1", "a0", "a1", "a2", "a3", "a4",
    "a5", "a6", "a7", "s2", "s3", "s4", "s5", "s6", "s7", "s8", "s9", "s10", "s11", "t3", "t4",
    "t5", "t6"]

def registers : Registers where
  file := conventionNames.zipIdx.map fun (name, n) =>
    { id := n, name := s!"x{n}", bits := 32, abiName := some name }
  link := ra
  stack := sp
  returnBuffer := t6
  zero := fun _ => zero
  classFor := fun _ _ => gpr
  classOf? := fun reg => if reg < 32 then some gpr else none
  className := fun c => if c = gpr then "gpr" else "unknown"

def convention : Convention where
  stackAlignment := 16
  maxAggregateBits := 64
  arguments := List.range' 10 8
  floatArguments := []
  calleeSaved := List.range' 8 2 ++ List.range' 18 10
  callerSaved := List.range' 5 3 ++ List.range' 10 8 ++ List.range' 28 4
  results := List.range' 10 2
  floatResults := []

end Retarget.Target.Riscv
