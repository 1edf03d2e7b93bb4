import Retarget.Target.Convention
import Retarget.Target.Register

/-!
# AArch64 registers and calling convention

Numbers: `w0` to `w30`, then `x0` to `x30`, `s0` to `s31`, `d0` to `d31`, and last `sp`, `wzr` and
`xzr`.  Every `x` register contains the `w` register of the same index, and every `d` register the
`s` register.
-/

namespace Retarget.Target.AArch64

open Machine (RegId RegClass)

def w (n : Nat) : RegId := n

def x (n : Nat) : RegId := 31 + n

def s (n : Nat) : RegId := 62 + n

def d (n : Nat) : RegId := 94 + n

def sp : RegId := 126

def wzr : RegId := 127

def xzr : RegId := 128

def gpr : RegClass := ⟨0⟩

def gpr32 : RegClass := ⟨1⟩

def gpr64 : RegClass := ⟨2⟩

def fpr : RegClass := ⟨3⟩

def fpr32 : RegClass := ⟨4⟩

def fpr64 : RegClass := ⟨5⟩

/-- The register file, by number. -/
def registerFile : List Register :=
  ((List.range 31).map fun n => { id := w n, name := s!"w{n}", bits := 32 })
    ++ ((List.range 31).map fun n => { id := x n, name := s!"x{n}", bits := 64, views := [w n] })
    ++ ((List.range 32).map fun n => { id := s n, name := s!"s{n}", bits := 32, isFloat := true })
    ++ ((List.range 32).map fun n =>
      { id := d n, name := s!"d{n}", bits := 64, views := [s n], isFloat := true })
    ++ [{ id := sp, name := "sp", bits := 64 }, { id := wzr, name := "wzr", bits := 32 },
      { id := xzr, name := "xzr", bits := 64, views := [wzr] }]

def classFor (bits : Nat) (isFloat : Bool) : RegClass :=
  match isFloat, decide (bits ≤ 32) with
  | false, true => gpr32
  | false, false => gpr64
  | true, true => fpr32
  | true, false => fpr64

def classOf? (reg : RegId) : Option RegClass :=
  if reg < x 0 then some gpr32
  else if reg < s 0 then some gpr64
  else if reg < d 0 then some fpr32
  else if reg < sp then some fpr64
  else if reg = sp ∨ reg = xzr then some gpr64
  else if reg = wzr then some gpr32
  else none

def className (c : RegClass) : String :=
  if c = gpr then "gpr"
  else if c = gpr32 then "gpr32"
  else if c = gpr64 then "gpr64"
  else if c = fpr then "fpr"
  else if c = fpr32 then "fpr32"
  else if c = fpr64 then "fpr64"
  else "unknown"

def registers : Registers where
  file := registerFile
  link := x 30
  stack := sp
  returnBuffer := x 8
  zero := fun bits => if bits ≤ 32 then wzr else xzr
  classFor := classFor
  classOf? := classOf?
  className := className

/-- The `count` registers of a bank from index `first` on. -/
def bank (reg : Nat → RegId) (first count : Nat) : List RegId :=
  (List.range' first count).map reg

def convention : Convention where
  stackAlignment := 16
  maxAggregateBits := 128
  arguments := bank x 0 8
  floatArguments := bank d 0 8
  calleeSaved := bank x 19 10 ++ bank d 8 8
  callerSaved := bank x 0 8 ++ bank x 9 7 ++ bank d 0 8 ++ bank d 16 16
  results := bank x 0 8
  floatResults := bank d 0 4

end Retarget.Target.AArch64
