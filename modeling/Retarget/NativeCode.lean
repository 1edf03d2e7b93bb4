import Retarget.Target.Basic

/-!
# Native code and frame code

Instruction selection hands every generic instruction to the target.  One instruction may become
several; the walk continues behind the last of them, so it takes one step for each instruction the
block had.

A function that has frame objects, calls, or uses callee-saved registers reserves its frame by one
adjustment of the stack pointer at entry and releases it before the first return of every block.
The link register of a caller and the callee-saved registers in use are kept in slots on top of the
frame.  This code is selected on the spot.
-/

namespace Retarget.Machine.Function

/-! ## Selection -/

/-- Selects `count` instructions of block `b`, starting at `i`. -/
def selectFrom (t : Target) (b : Nat) : Nat → Nat → Function → Result Function
  | 0, _, f => .ok f
  | count + 1, i, f => do
    let (next, f) ← t.selectAt f b i
    selectFrom t b count next f

/-- The function in native instructions. -/
def selectInstructions (t : Target) (f : Function) : Result Function := do
  let f ← (List.range f.blocks.length).foldlM
    (fun f b => selectFrom t b (f.blockLength b) 0 f) f
  return t.fixUp f

/-! ## Frame code -/

/-- The number of the first save slot, past every id of the function's own counter. -/
def saveSlotBase : Nat := 0x40000000

/-- The largest frame whose offsets fit the load and store instructions of every target. -/
def maxFrameSize : Nat := 2047

/-- A register to save, and where. -/
structure Saved where
  operand : Operand
  slot : Slot

/-- The registers to save: the link register of a caller, then the callee-saved ones. -/
def registersToSave (t : Target) (f : Function) : List RegId :=
  (if f.isCaller then [t.registers.link] else []) ++ f.usedCalleeSaved

/-- A slot for a register, after `n` others. -/
def savedAt (t : Target) (reg : RegId) (n : Nat) : Saved × Nat :=
  let (bits, isFloat) := match t.registers.get? reg with
    | some r => (r.bits, r.isFloat)
    | none => (t.pointerBits, false)
  let ty := if isFloat then LowType.float bits else .integer bits
  (⟨.physicalReg reg ty, ⟨saveSlotBase + n⟩⟩, bits / 8)

/-- `instrs` at position `i` of block `b`, each selected on the spot. -/
def insertSelected (t : Target) (b : Nat) : Nat → List Instruction → Function → Result Function
  | _, [], f => .ok f
  | i, instr :: rest, f => do
    let f ← f.insertAt b i instr
    let (next, f) ← t.selectAt f b i
    insertSelected t b next rest f

/-- The blocks that return, with the position of their first return. -/
def returns (f : Function) : List (Nat × Nat) :=
  f.blocks.zipIdx.filterMap fun (block, b) => block.returnIndex?.map fun i => (b, i)

/-- A move of the stack pointer by `size` bytes. -/
def adjustStack (t : Target) (op : GenericOp) (size : Nat) : Instruction :=
  let sp := Operand.physicalReg t.registers.stack t.pointerType
  .generic op [sp, sp, .immediate size t.offsetType]

/-- A load or store of a saved register. -/
def accessSaved (t : Target) (frame : Frame) (op : GenericOp) (saved : Saved) :
    Result Instruction := do
  let position ← frame.position? saved.slot
  let position ← orFail (.internal s!"{saved.slot.text} is missing from the frame") position
  return .generic op [saved.operand, .physicalReg t.registers.stack t.pointerType,
    .immediate position t.offsetType]

/-- The function with its frame reserved at entry and released before returns. -/
def insertFrameCode (t : Target) (f : Function) : Result Function :=
  if f.frame.isEmpty && f.usedCalleeSaved.isEmpty && !f.isCaller then .ok f
  else if f.returns.isEmpty then .error (.missingReturn f.name)
  else do
    let saves := (f.registersToSave t).zipIdx.map fun (reg, n) => savedAt t reg n
    let saved := saves.map (·.1)
    let returns := f.returns
    let f := { f with frame := saves.foldl (fun frame s => frame.insert s.1.slot s.2) f.frame }
    let size ← f.frame.size
    let size ← Word.alignTo size t.convention.stackAlignment
    if maxFrameSize < size then
      throw (.unsupported
        s!"frame of '{f.name}' is {size} bytes, at most {maxFrameSize} are supported")
    let stores ← saved.mapM (accessSaved t f.frame .store)
    let loads ← saved.reverse.mapM (accessSaved t f.frame .load)
    let entry := adjustStack t .sub size :: stores
    let leave := loads ++ [adjustStack t .add size]
    let f ← returns.reverse.foldlM (fun f (b, i) => insertSelected t b i leave f) f
    insertSelected t 0 0 entry f

end Retarget.Machine.Function
