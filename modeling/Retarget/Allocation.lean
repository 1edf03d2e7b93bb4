import Retarget.LiveRange
import Retarget.RegisterPool
import Retarget.Target.Basic

/-!
# Register allocation

A linear scan without spilling.  Parameters and returned values are bound to the registers of the
calling convention first; every other range takes a free caller-saved register, or else a
callee-saved one.  A call does not end a range.
-/

namespace Retarget.Machine

/-- The register of every range, and the ranges it was chosen over. -/
structure Allocation where
  assigned : List (RegId × RegId)
  ranges : List LiveRange

namespace Function

/-! ## Parameters -/

/-- The register of a parameter before the bindings of the parameters behind it. -/
def bindBefore (id reg : RegId) (bound : List (RegId × RegId)) : List (RegId × RegId) :=
  if (bound.lookup id).isSome then bound else (id, reg) :: bound

/-- Binds parameters, from the `next`-th argument register and the `nextFloat`-th floating-point one
on. -/
def bindParameters (t : Target) (name : String) (next nextFloat : Nat) :
    List Parameter → Result (List (RegId × RegId))
  | [] => .ok []
  | p :: rest => do
    let tooMany := Failure.unsupported s!"'{name}' has more parameters than argument registers"
    if p.isReturnBuffer then
      let bound ← bindParameters t name next nextFloat rest
      return bindBefore p.id (t.registers.root t.registers.returnBuffer) bound
    else if p.isFloat then
      let reg ← orFail tooMany t.convention.floatArguments[nextFloat]?
      let bound ← bindParameters t name next (nextFloat + 1) rest
      return bindBefore p.id (t.registers.root reg) bound
    else
      let reg ← orFail tooMany t.convention.arguments[next]?
      let bound ← bindParameters t name (next + 1) nextFloat rest
      return bindBefore p.id (t.registers.root reg) bound

/-! ## Returned values -/

/-- The full-width registers that an instruction names directly. -/
def physicalRoots (t : Target) (i : Instruction) : List RegId :=
  (i.operands.filter (·.isPhysical)).filterMap fun o => o.reg?.map t.registers.root

/-- Whether a call, or an instruction that names the register, lies strictly inside the range. -/
def isOverwritten (t : Target) (f : Function) (range : LiveRange) (reg : RegId) : Bool :=
  f.instructions.zipIdx.any fun (i, index) =>
    range.covers index && index != range.start && index != range.stop &&
      (i.isCall || (physicalRoots t i).contains reg)

/-- Whether a range bound to the register interferes with `range`. -/
def clashesWithBound (ranges : List LiveRange) (bound : List (RegId × RegId)) (range : LiveRange)
    (reg : RegId) : Bool :=
  bound.any fun (other, home) => home == reg &&
    (ranges.find? (·.reg == other)).any (·.interferes range)

/-- Binds the value of a return to the return register, or asks for a move to it where that would
clobber a bound value or the register is overwritten on the way.  The answer holds the bindings and
the register to move to. -/
def planReturn (t : Target) (f : Function) (ranges : List LiveRange) (bound : List (RegId × RegId))
    (instr : Instruction) : Result (List (RegId × RegId) × Option RegId) :=
  match (instr.operand? 0).filter fun o => instr.isReturn && (o.isVirtual || o.isParameter) with
  | none => .ok (bound, none)
  | some value => do
    let some id := value.unallocated? | return (bound, none)
    let first ← orFail (.unsupported s!"no return register for {value.ty.text}")
      (t.convention.resultsOf value.ty.isFloat).head?
    let home := t.registers.root first
    match bound.lookup id with
    | some reg => return (bound, if reg = home then none else some home)
    | none =>
      let some range := ranges.find? (·.reg == id) | return (bound, none)
      if clashesWithBound ranges bound range home || isOverwritten t f range home then
        return (bound, some home)
      else return ((id, home) :: bound, none)

/-- A return, after a move of its value into the register `home` if one is given. -/
def moveReturn (t : Target) (instr : Instruction) (home : Option RegId) : List Instruction :=
  match home, instr.operand? 0 with
  | some home, some value =>
    let dest := Operand.physicalReg (t.registers.withWidth home value.size) value.ty
    let op := if value.ty.isFloat then GenericOp.movf else .mov
    [.generic op [dest, value], instr.replaceOperand 0 dest]
  | _, _ => [instr]

/-- Binds the values of the returns among instructions, and puts the moves before them. -/
def bindInstructions (t : Target) (f : Function) (ranges : List LiveRange) :
    List (RegId × RegId) → List Instruction → Result (List (RegId × RegId) × List Instruction)
  | bound, [] => .ok (bound, [])
  | bound, instr :: rest => do
    let (bound, home) ← planReturn t f ranges bound instr
    let (bound, rest) ← bindInstructions t f ranges bound rest
    return (bound, moveReturn t instr home ++ rest)

/-- Binds the values of the returns of blocks, from left to right. -/
def bindBlocks (t : Target) (f : Function) (ranges : List LiveRange) :
    List (RegId × RegId) → List Block → Result (List (RegId × RegId) × List Block)
  | bound, [] => .ok (bound, [])
  | bound, block :: rest => do
    let (bound, instructions) ← bindInstructions t f ranges bound block.instructions
    let (bound, rest) ← bindBlocks t f ranges bound rest
    return (bound, { block with instructions := instructions } :: rest)

/-- Binds returned values; the answer holds all bindings and the function with the moves. -/
def bindReturns (t : Target) (f : Function) (bound : List (RegId × RegId)) :
    Result (List (RegId × RegId) × Function) := do
  let (bound, blocks) ← bindBlocks t f f.liveRanges bound f.blocks
  return (bound, { f with blocks := blocks })

/-! ## The scan -/

/-- Where a scan stands. -/
structure Scan where
  assigned : List (RegId × RegId)
  active : List LiveRange := []
  pool : RegisterPool
  usedCalleeSaved : List RegId

/-- Frees the registers of the ranges that ended before `start`. -/
def Scan.expire (s : Scan) (start : Nat) : Scan :=
  let (ended, active) := s.active.partition fun r => r.stop < start
  let pool := ended.foldl (fun pool r => match s.assigned.lookup r.reg with
    | some reg => pool.release reg
    | none => pool) s.pool
  { s with active := active, pool := pool }

/-- Gives a range its register, unless it is bound already. -/
def Scan.place (t : Target) (name : String) (s : Scan) (range : LiveRange) : Result Scan :=
  if (s.assigned.lookup range.reg).isSome then .ok s
  else do
    let s := s.expire range.start
    let regClass := range.regClass.getD (t.registers.classFor t.pointerBits false)
    let (taken, pool) ← orFail (.registersExhausted name (t.registers.className regClass))
      (s.pool.take t.registers regClass)
    let used := if taken.promoted && !s.usedCalleeSaved.contains taken.reg
      then s.usedCalleeSaved ++ [taken.reg] else s.usedCalleeSaved
    return { assigned := (range.reg, taken.reg) :: s.assigned
             active := s.active ++ [range]
             pool := pool
             usedCalleeSaved := used }

/-- Chooses a register for every range.  The function changes by the moves before returns and by the
callee-saved registers it now uses. -/
def assignRegisters (t : Target) (f : Function) : Result (Allocation × Function) := do
  let bound ← bindParameters t f.name 0 0 f.params
  let (bound, f) ← bindReturns t f bound
  let reserved := bound.map (·.2) ++ f.instructions.flatMap (physicalRoots t)
  let pool := RegisterPool.make t.convention.callerSaved t.convention.calleeSaved reserved
  let ranges := f.liveRanges
  let scan ← ranges.foldlM (Scan.place t f.name)
    { assigned := bound, pool := pool, usedCalleeSaved := f.usedCalleeSaved }
  return (⟨scan.assigned, ranges⟩, { f with usedCalleeSaved := scan.usedCalleeSaved })

/-! ## Code over physical registers -/

def assignedReg (name : String) (assigned : List (RegId × RegId)) (id : RegId) : Result RegId :=
  orFail (.internal s!"%vr{id} of '{name}' has no register") (assigned.lookup id)

/-- A virtual register or parameter becomes the view of its register that fits its width. -/
def placeOperand (t : Target) (name : String) (assigned : List (RegId × RegId)) (o : Operand) :
    Result Operand :=
  match o.kind with
  | .virtualReg id | .parameter id => do
    let reg ← assignedReg name assigned id
    return o.setPhysical (t.registers.withWidth reg o.size)
  | _ => .ok o

def resolveMemory (t : Target) (f : Function) (assigned : List (RegId × RegId)) (o : Operand) :
    Result (RegId × Int) :=
  match o.kind with
  | .stack slot offset => do
    let position ← f.frame.position? slot
    let position ← orFail (.internal s!"{slot.text} is not in the frame of '{f.name}'") position
    let offset ← Word.fitSigned (position + offset)
    return (t.registers.stack, offset)
  | .memory base offset => do
    let reg ← assignedReg f.name assigned base
    return (t.registers.withWidth reg t.pointerBits, offset)
  | _ => .error (.internal s!"unexpected memory operand {o.text}")

/-- Registers become physical, and the memory operand moves to the end as a base and an offset. -/
def placeInstruction (t : Target) (f : Function) (assigned : List (RegId × RegId))
    (i : Instruction) : Result Instruction := do
  let operands ← i.operands.mapM (placeOperand t f.name assigned)
  let i := i.withOperands operands
  match i.memoryIndex? with
  | none => return i
  | some k =>
    match i.operand? k with
    | none => return i
    | some place =>
      let (base, offset) ← resolveMemory t f assigned place
      return i.withOperands ((i.operands.eraseIdx k) ++
        [.physicalReg base t.pointerType, .immediate offset t.offsetType])

/-- The function over physical registers only. -/
def allocateRegisters (t : Target) (f : Function) : Result Function := do
  let (allocation, f) ← f.assignRegisters t
  let blocks ← f.blocks.mapM fun b => do
    let instructions ← b.instructions.mapM (placeInstruction t f allocation.assigned)
    return { b with instructions := instructions }
  return { f with blocks := blocks }

end Function

end Retarget.Machine
