import Retarget.Machine.Function
import Retarget.Target.Basic

/-!
# Register classes

One forward scan gives every virtual register and parameter the class of its first occurrence, which
follows from the operation, the operand's type and its width.  A value loaded from a frame slot
takes the class of what was last stored there.
-/

namespace Retarget.Machine

/-- Whether the operand at a position of an instruction holds a floating-point value. -/
def Instruction.isFloatPosition (i : Instruction) (position : Nat) (o : Operand) : Bool :=
  o.ty.isFloat ||
    match i.generic? with
    | some .addf | some .subf | some .mulf | some .divf | some .movf => true
    | some .cmpf => 0 < position
    | some .itof => position == 0
    | some .ftoi => position == 1
    | _ => false

/-- The classes chosen so far, of registers and of values in frame slots. -/
structure Classes where
  ofReg : List (RegId × RegClass) := []
  ofSlot : List ((Slot × Int) × RegClass) := []

namespace Classes

/-- The class of a register; one without a class gets `proposal`. -/
def choose (cs : Classes) (reg : RegId) (proposal : RegClass) : Classes × RegClass :=
  match cs.ofReg.lookup reg with
  | some c => (cs, c)
  | none => ({ cs with ofReg := (reg, proposal) :: cs.ofReg }, proposal)

/-- The class of one operand; a memory base holds an address. -/
def visitOperand (t : Target) (i : Instruction) (cs : Classes) (entry : Operand × Nat) :
    Classes × Operand :=
  let (o, position) := entry
  match o.unallocated? with
  | none => (cs, o)
  | some reg =>
    if o.isMemory then
      (cs, { o with regClass := some (t.registers.classFor t.pointerBits false) })
    else
      let proposal := t.registers.classFor o.size (i.isFloatPosition position o)
      let (cs, c) := cs.choose reg proposal
      (cs, { o with regClass := some c })

/-- A load from a frame slot gives its destination the class of the slot. -/
def inherit (cs : Classes) (i : Instruction) : Classes :=
  if i.isLoad then
    match (i.operands.findSome? (·.frameByte?)).bind fun place => cs.ofSlot.lookup place,
        i.def?.bind (·.unallocated?) with
    | some c, some reg => (cs.choose reg c).1
    | _, _ => cs
  else cs

/-- A store to a frame slot gives the slot the class of the stored register. -/
def record (cs : Classes) (i : Instruction) : Classes :=
  if i.isStore then
    match i.operands.findSome? (·.frameByte?),
        (i.operands.find? (·.isRegLike)).bind (·.regClass) with
    | some place, some c => { cs with ofSlot := (place, c) :: cs.ofSlot }
    | _, _ => cs
  else cs

def visitInstruction (t : Target) (cs : Classes) (i : Instruction) : Classes × Instruction :=
  let cs := cs.inherit i
  let (cs, operands) := mapAccum (visitOperand t i) cs i.operands.zipIdx
  let i := i.withOperands operands
  (cs.record i, i)

def visitBlock (t : Target) (cs : Classes) (b : Block) : Classes × Block :=
  let (cs, instructions) := mapAccum (visitInstruction t) cs b.instructions
  (cs, { b with instructions := instructions })

end Classes

/-- The function with a class on every register that allocation has to place. -/
def Function.selectClasses (t : Target) (f : Function) : Function :=
  let start : Classes :=
    { ofReg := f.params.reverse.map fun p =>
        (p.id, t.registers.classFor p.ty.bits p.isFloat) }
  { f with blocks := (mapAccum (Classes.visitBlock t) start f.blocks).2 }

end Retarget.Machine
