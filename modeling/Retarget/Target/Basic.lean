import Retarget.Target.Convention
import Retarget.Target.Register
import Retarget.Target.Site
import Retarget.Target.Template

/-!
# Targets

One record holds all that the stages of the code generator ask about an instruction set: registers,
calling convention, templates, legality rules and instruction selection.
-/

namespace Retarget

open Machine (Function Instruction GenericOp LowType)
open Target (Registers Convention Template Site Replacement)

structure Target where
  name : String
  pointerBits : Nat
  registers : Registers
  convention : Convention
  templates : List Template
  /-- Whether the instruction at a position can be selected as it is. -/
  isLegal : Function → Nat → Nat → Bool
  /-- Whether `expand` has a step for an instruction. -/
  isExpandable : Instruction → Bool
  /-- One step towards legal code. -/
  expand : Function → Nat → Nat → Result Function
  /-- The native form of a generic instruction. -/
  select : Site → GenericOp → Result Replacement
  /-- Touches up code that is selected throughout. -/
  fixUp : Function → Function

namespace Target

def pointerBytes (t : Target) : Nat := t.pointerBits / 8

def pointerType (t : Target) : LowType := .pointer t.pointerBits

def offsetType (t : Target) : LowType := .integer t.pointerBits

def template? (t : Target) (i : Instruction) : Option Template :=
  Template.find? t.templates i.opcode.number

/-- Selects the instruction at a position, and answers the position behind what it turned into. -/
def selectAt (t : Target) (f : Function) (b i : Nat) : Result (Nat × Function) := do
  let site ← Site.at? f b i
  if site.instruction.isSelected then return (site.stop, f)
  match site.instruction.generic? with
  | none => throw (.internal s!"unknown opcode in '{site.instruction.text}'")
  | some op =>
    let replacement ← t.select site op
    let site := site.become replacement
    if site.instruction.isSelected then return (site.stop, site.function)
    else throw site.illegal

end Target

end Retarget
