import Retarget.Machine.Function
import Retarget.Proofs.Execution.Memory

/-!
# What generic code does

Registers hold bits, and an operand reads as many of them as its type has.  Frame slots are objects
in a memory of bytes, a call changes memory and the physical registers in any way, and what floating
point computes is left open (`Interpretation`).  An instruction evaluates the operands that it reads
and has one effect (`effect`); code without a meaning, a division by zero among it, is stuck.  A run
performs stores and calls one after the other (`State.trace`) and may return (`Performs`).
-/

namespace Retarget.Machine

/-- Bits of some width. -/
structure Bits where
  width : Nat
  value : BitVec width

/-- The low `width` bits, if there are as many. -/
def Bits.read? (c : Bits) (width : Nat) : Option (BitVec width) :=
  if width ≤ c.width then some (c.value.setWidth width) else none

/-- What an operand stands for. -/
inductive Arg (p : Nat) where
  | bits (value : Bits)
  /-- A place in memory; inside a frame object, with the number of bytes from there to its end. -/
  | place (address : BitVec p) (room : Option Nat)
  | symbol (name : String)
  | label (name : String)

/-- What others can see of a run. -/
inductive Event (p : Nat) (Physical : Type) where
  | store (address : BitVec p) (value : Bits)
  /-- The arguments of a call are in physical registers. -/
  | call (callee : Arg p) (physical : Physical)

/-- What generic code leaves open: where slots and symbols lie, how physical registers overlap, what
floating point computes, and what a call does to memory and to the physical registers, which may
depend on everything that was done before. -/
structure Interpretation where
  pointerBits : Nat
  base : Slot → BitVec pointerBits
  symbol : String → BitVec pointerBits
  Physical : Type
  readPhysical : Physical → RegId → (width : Nat) → Option (BitVec width)
  writePhysical : Physical → RegId → Bits → Physical
  float : GenericOp → Option Relation → (width : Nat) → List Bits → BitVec width
  call : List (Event pointerBits Physical) → Arg pointerBits → Memory pointerBits → Physical →
    Memory pointerBits × Physical

def Interpretation.address (M : Interpretation) (place : Slot × Int) : BitVec M.pointerBits :=
  M.base place.1 + BitVec.ofInt M.pointerBits place.2

/-- The number of bytes from a byte of a frame object to its end. -/
def Frame.room? (frame : Frame) (place : Slot × Int) : Option Nat :=
  (frame.objectSize? place.1).map fun size => if 0 ≤ place.2 then size - place.2.toNat else 0

/-- Where a run stands. -/
structure State (M : Interpretation) where
  block : Nat
  index : Nat
  regs : RegId → Option Bits
  physical : M.Physical
  memory : Memory M.pointerBits
  trace : List (Event M.pointerBits M.Physical)

variable {M : Interpretation}

namespace State

def next (s : State M) : State M := { s with index := s.index + 1 }

def enter (s : State M) (b : Nat) : State M := { s with block := b, index := 0 }

def write (s : State M) (r : RegId) (value : Bits) : State M :=
  { s with regs := fun x => if x = r then some value else s.regs x }

def writePhysical (s : State M) (r : RegId) (value : Bits) : State M :=
  { s with physical := M.writePhysical s.physical r value }

def assign (s : State M) (dest : Operand) (value : Bits) : Option (State M) :=
  match dest.kind with
  | .virtualReg r => some (s.write r value)
  | .physicalReg r => some (s.writePhysical r value)
  | _ => none

def store (s : State M) (address : BitVec M.pointerBits) (value : Bits) : State M :=
  { s with
    memory := s.memory.storeBits address value.value
    trace := s.trace ++ [.store address value] }

def call (s : State M) (callee : Arg M.pointerBits) : State M :=
  let (memory, physical) := M.call s.trace callee s.memory s.physical
  { s with memory := memory, physical := physical, trace := s.trace ++ [.call callee s.physical] }

end State

/-! ## Operands -/

/-- What an operand stands for; a register has to hold enough bits, and a slot has to be in the
frame. -/
def Operand.eval (o : Operand) (frame : Frame) (s : State M) : Option (Arg M.pointerBits) :=
  match o.kind with
  | .virtualReg r | .parameter r =>
    ((s.regs r).bind (·.read? o.size)).map fun v => .bits ⟨o.size, v⟩
  | .physicalReg r => (M.readPhysical s.physical r o.size).map fun v => .bits ⟨o.size, v⟩
  | .immediate v => some (.bits ⟨o.size, BitVec.ofInt o.size v⟩)
  | .memory r offset =>
    ((s.regs r).bind (·.read? M.pointerBits)).map fun a =>
      .place (a + BitVec.ofInt M.pointerBits offset) none
  | .stack slot offset =>
    (frame.room? (slot, offset)).map fun room => .place (M.address (slot, offset)) (some room)
  | .label name => some (.label name)
  | .function name | .global name => some (.symbol name)

namespace Arg

def toBits (M : Interpretation) : Arg M.pointerBits → Option Bits
  | bits c => some c
  | symbol name => some ⟨M.pointerBits, M.symbol name⟩
  | _ => none

/-- The value as a word of another width. -/
def word (M : Interpretation) (width : Nat) (a : Arg M.pointerBits) : Option (BitVec width) :=
  (a.toBits M).map fun c => c.value.setWidth width

end Arg

/-- Whether a word of `width` bits has room. -/
def hasRoom (room : Option Nat) (width : Nat) : Bool := room.all (byteCount width ≤ ·)

/-! ## Operations -/

def Relation.holds {width : Nat} (r : Relation) (x y : BitVec width) : Bool :=
  match r with
  | eq => x == y
  | ne => x != y
  | lt => x.slt y
  | gt => y.slt x
  | le => x.sle y
  | ge => y.sle x
  | ltu => x.ult y

/-- The word that an operation without memory computes. -/
def compute (M : Interpretation) (op : GenericOp) (relation : Option Relation) (width : Nat)
    (args : List (Arg M.pointerBits)) : Option (BitVec width) :=
  match op, args with
  | .and, [a, b] => do return (← a.word M width) &&& (← b.word M width)
  | .or, [a, b] => do return (← a.word M width) ||| (← b.word M width)
  | .xor, [a, b] => do return (← a.word M width) ^^^ (← b.word M width)
  | .lsl, [a, b] => do return (← a.word M width) <<< (← b.toBits M).value.toNat
  | .lsr, [a, b] => do return (← a.word M width) >>> (← b.toBits M).value.toNat
  | .add, [a, b] => do return (← a.word M width) + (← b.word M width)
  | .sub, [a, b] => do return (← a.word M width) - (← b.word M width)
  | .mul, [a, b] => do return (← a.word M width) * (← b.word M width)
  | .div, [a, b] => do
    let x ← a.word M width
    let y ← b.word M width
    if y = 0 then none else return x.sdiv y
  | .divu, [a, b] => do
    let x ← a.word M width
    let y ← b.word M width
    if y = 0 then none else return x.udiv y
  | .mod, [a, b] => do
    let x ← a.word M width
    let y ← b.word M width
    if y = 0 then none else return x.srem y
  | .modu, [a, b] => do
    let x ← a.word M width
    let y ← b.word M width
    if y = 0 then none else return x.umod y
  | .cmp, [a, b] => do
    let r ← relation
    let x ← a.toBits M
    let y ← b.word M x.width
    return if r.holds x.value y then 1 else 0
  | .sext, [a] => do return (← a.toBits M).value.signExtend width
  | .zext, [a] | .trunc, [a] | .loadImm, [a] | .mov, [a] | .movf, [a] | .globalAddress, [a] =>
    a.word M width
  | .stackAddress, [.place address _] => some (address.setWidth width)
  | .addf, args | .subf, args | .mulf, args | .divf, args | .cmpf, args | .ftoi, args
  | .itof, args => do return M.float op relation width (← args.mapM (·.toBits M))
  | _, _ => none

/-- The word that an operation computes or loads. -/
def produce (op : GenericOp) (relation : Option Relation) (width : Nat)
    (memory : Memory M.pointerBits) (args : List (Arg M.pointerBits)) : Option (BitVec width) :=
  match op, args with
  | .load, [.place address room] =>
    if hasRoom room width then some (memory.loadBits address width) else none
  | .zextLoad, [a, .place address room] => do
    let loaded := (← a.toBits M).value.toNat
    if hasRoom room loaded then return (memory.loadBits address loaded).setWidth width else none
  | op, args => compute M op relation width args

/-- What an instruction does. -/
inductive Effect (M : Interpretation) where
  | assign (dest : Operand) (value : Bits)
  | store (address : BitVec M.pointerBits) (value : Bits)
  | jump (name : String)
  | skip
  | call (callee : Arg M.pointerBits)
  | stop (value : Option Bits)

/-- The effect of an operation that defines `dest` and reads `args`. -/
def effect (op : GenericOp) (relation : Option Relation) (dest : Option Operand)
    (memory : Memory M.pointerBits) (args : List (Arg M.pointerBits)) : Option (Effect M) :=
  match op, args with
  | .store, [.place address room, a] => do
    let value ← a.toBits M
    if hasRoom room value.width then return .store address value else none
  | .jump, [.label name] => some (.jump name)
  | .branch, [a, .label yes] => do
    return if (← a.toBits M).value = 0 then .skip else .jump yes
  | .branch, [a, .label yes, .label no] => do
    return .jump (if (← a.toBits M).value = 0 then no else yes)
  | .call, [callee] => some (.call callee)
  | .ret, [] => some (.stop none)
  | .ret, [a] => do return .stop (some (← a.toBits M))
  | op, args => do
    let d ← dest
    return .assign d ⟨d.size, ← produce op relation d.size memory args⟩

/-! ## Runs -/

def Flags.plain (flags : Flags) : Flags := { flags with expanded := false }

/-- What comes after a step: another state, or the end of the run with what it returns. -/
inductive Move (M : Interpretation) where
  | go (s : State M)
  | stop (value : Option Bits)

def State.perform (s : State M) (f : Function) : Effect M → Option (Move M)
  | .assign dest value => (s.assign dest value).map fun s => .go s.next
  | .store address value => some (.go (s.store address value).next)
  | .jump name => (f.blockIndex? name).map fun b => .go (s.enter b)
  | .skip => some (.go s.next)
  | .call callee => some (.go (s.call callee).next)
  | .stop value => some (.stop value)

namespace Function

/-- The effect of the instruction at hand; it has to be generic, with the flags of its operation. -/
def effectOf (f : Function) (s : State M) (i : Instruction) : Option (Effect M) := do
  let op ← i.generic?
  guard (i.flags.plain = op.flags)
  let args ← i.uses.mapM fun o => o.eval f.frame s
  effect op i.relation i.def? s.memory args

/-- One step; from the end of a block, control goes on to the next one. -/
def step (f : Function) (s : State M) : Option (Move M) :=
  match f.instruction? s.block s.index with
  | some i => (f.effectOf s i).bind (s.perform f)
  | none => if s.block + 1 < f.blocks.length then some (.go (s.enter (s.block + 1))) else none

/-- A run from one state to another. -/
inductive Reaches (f : Function) (s : State M) : State M → Prop
  | refl : Reaches f s s
  | step {t u : State M} (ht : Reaches f s t) (hstep : f.step t = some (.go u)) : Reaches f s u

/-- A run from the state gets to performing the events, and returns if `result` is given. -/
def Performs (f : Function) (s : State M) (events : List (Event M.pointerBits M.Physical))
    (result : Option (Option Bits)) : Prop :=
  ∃ t, f.Reaches s t ∧ t.trace = events ∧ ∀ v, result = some v → f.step t = some (.stop v)

/-- No run from the state gets stuck. -/
def Safe (f : Function) (s : State M) : Prop := ∀ t, f.Reaches s t → (f.step t).isSome

end Function

end Retarget.Machine
