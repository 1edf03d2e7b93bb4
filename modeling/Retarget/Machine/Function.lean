import Retarget.Machine.Data
import Retarget.Machine.Frame
import Retarget.Machine.Instruction

/-!
# Machine functions and modules

A function is a list of named blocks over a frame, a parameter list and one counter that numbers
virtual registers, parameters and frame slots alike.
-/

namespace Retarget

/-- Maps a list from left to right while a state is carried along. -/
def mapAccum {σ α β : Type} (step : σ → α → σ × β) : σ → List α → σ × List β
  | s, [] => (s, [])
  | s, a :: as =>
    let (s, b) := step s a
    let (s, bs) := mapAccum step s as
    (s, b :: bs)

namespace Machine

structure Block where
  name : String
  instructions : List Instruction := []
deriving DecidableEq

namespace Block

def returnIndex? (b : Block) : Option Nat :=
  b.instructions.findIdx? (·.isReturn)

def insertAt (b : Block) (k : Nat) (i : Instruction) : Result Block :=
  if k ≤ b.instructions.length then .ok { b with instructions := b.instructions.insertIdx k i }
  else .error .outOfRange

def removeAt (b : Block) (k : Nat) : Result Block :=
  if k < b.instructions.length then .ok { b with instructions := b.instructions.eraseIdx k }
  else .error .outOfRange

/-- `new` in place of the `count` instructions from position `k` on. -/
def splice (b : Block) (k count : Nat) (new : List Instruction) : Block :=
  { b with instructions := b.instructions.take k ++ new ++ b.instructions.drop (k + count) }

def text (b : Block) : String :=
  s!"{b.name}:\n" ++ String.join (b.instructions.map fun i => s!"    {i.text}\n")

end Block

/-- An incoming argument. -/
structure Parameter where
  id : RegId
  ty : LowType
  isFloat : Bool
  /-- Whether it holds the address of the caller's buffer for a large result. -/
  isReturnBuffer : Bool
deriving DecidableEq

structure Function where
  name : String
  blocks : List Block := []
  frame : Frame := {}
  params : List Parameter := []
  /-- The callee-saved registers in use, in the order in which they were handed out. -/
  usedCalleeSaved : List RegId := []
  /-- Whether the body calls. -/
  isCaller : Bool := false
  /-- The next unused id. -/
  nextId : Nat := 0
deriving DecidableEq

namespace Function

/-! ## Ids -/

/-- A new id, and the function that has used it. -/
def fresh (f : Function) : Result (RegId × Function) := do
  let next ← Word.fit 32 (f.nextId + 1)
  return (f.nextId, { f with nextId := next })

def addSlot (f : Function) (size : Nat) : Result (Slot × Function) := do
  let (id, f) ← f.fresh
  return (⟨id⟩, { f with frame := f.frame.insert ⟨id⟩ size })

def addParameter (f : Function) (ty : LowType) (isFloat isReturnBuffer : Bool) :
    Result (RegId × Function) := do
  let (id, f) ← f.fresh
  return (id, { f with params := f.params ++ [⟨id, ty, isFloat, isReturnBuffer⟩] })

/-! ## Positions -/

def instructions (f : Function) : List Instruction :=
  f.blocks.flatMap (·.instructions)

def blockIndex? (f : Function) (name : String) : Option Nat :=
  f.blocks.findIdx? (·.name == name)

/-- The length of block `b`; a block that does not exist has none. -/
def blockLength (f : Function) (b : Nat) : Nat :=
  match f.blocks[b]? with
  | some block => block.instructions.length
  | none => 0

def instruction? (f : Function) (b k : Nat) : Option Instruction := do
  let block ← f.blocks[b]?
  block.instructions[k]?

/-- The instruction that an expansion or a selection is asked to work on. -/
def instructionAt (f : Function) (b k : Nat) : Result Instruction :=
  orFail (.internal s!"no instruction at {b}:{k} in '{f.name}'") (f.instruction? b k)

def hasReturn (f : Function) : Bool := f.instructions.any (·.isReturn)

def modifyBlock (f : Function) (b : Nat) (change : Block → Block) : Function :=
  { f with blocks := f.blocks.modify b change }

/-- Block `b` changed by a step that may fail; a block that does not exist is out of range. -/
def changeBlock (f : Function) (b : Nat) (change : Block → Result Block) : Result Function :=
  match f.blocks[b]? with
  | some block => do
    let block ← change block
    return { f with blocks := f.blocks.set b block }
  | none => .error .outOfRange

/-- `new` in place of the instruction at position `k` of block `b`. -/
def replaceAt (f : Function) (b k : Nat) (new : List Instruction) : Function :=
  f.modifyBlock b fun block => block.splice k 1 new

def insertAt (f : Function) (b k : Nat) (i : Instruction) : Result Function :=
  f.changeBlock b fun block => block.insertAt k i

def removeAt (f : Function) (b k : Nat) : Result Function :=
  f.changeBlock b fun block => block.removeAt k

def mapInstructions (f : Function) (change : Instruction → Instruction) : Function :=
  { f with blocks := f.blocks.map fun b =>
      { b with instructions := b.instructions.map change } }

/-! ## Text -/

def text (f : Function) : String :=
  let params := if f.params.isEmpty then "" else
    "  params:" ++ String.join (f.params.map fun p => s!" %param{p.id}({p.ty.text})") ++ "\n"
  let frame := if f.frame.isEmpty then "" else
    "  frame:" ++ String.join (f.frame.objects.map fun o => s!" {o.slot.text}[{o.size}]") ++ "\n"
  s!"function {f.name}:\n" ++ params ++ frame ++ String.join (f.blocks.map (·.text))

end Function

/-! ## Modules -/

/-- Everything that one run of the code generator produces before it is printed. -/
structure Module where
  functions : List Function := []
  globals : List Data := []
deriving DecidableEq

namespace Module

def text (m : Module) : String :=
  "\n".intercalate (m.functions.map (·.text)) ++ String.join (m.globals.map (·.text))

end Module

end Machine

end Retarget
