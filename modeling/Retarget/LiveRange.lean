import Retarget.Machine.Function

/-!
# Live ranges

Instructions are numbered in block order.  A register lives from its first to its last occurrence,
and a parameter from the start of the function.
-/

namespace Retarget.Machine

structure LiveRange where
  reg : RegId
  regClass : Option RegClass
  /-- The number of the first occurrence. -/
  start : Nat
  /-- The number of the last occurrence. -/
  stop : Nat
deriving DecidableEq

namespace LiveRange

/-- Whether each holds a value past the other's start.  A range that ends where another starts does
not interfere, because an instruction reads before it writes. -/
def interferes (a b : LiveRange) : Bool := a.start < b.stop && b.start < a.stop

def covers (r : LiveRange) (index : Nat) : Bool := r.start ≤ index && index ≤ r.stop

/-- The order of allocation: by start, then by stop, then by register. -/
def precedes (a b : LiveRange) : Bool :=
  a.start < b.start || (a.start == b.start &&
    (a.stop < b.stop || (a.stop == b.stop && a.reg ≤ b.reg)))

/-- The ranges after `reg` occurs, with a class or without, at `index`. -/
def extend (reg : RegId) (regClass : Option RegClass) (index : Nat) :
    List LiveRange → List LiveRange
  | [] => [⟨reg, regClass, index, index⟩]
  | r :: rest =>
    if r.reg = reg then
      { r with stop := max r.stop index, regClass := r.regClass <|> regClass } :: rest
    else r :: extend reg regClass index rest

/-- The ranges after an operand of instruction `index`.  The class on a memory operand is not the
class of its base. -/
def visitOperand (index : Nat) (ranges : List LiveRange) (o : Operand) : List LiveRange :=
  match o.unallocated? with
  | none => ranges
  | some reg => extend reg (if o.isMemory then none else o.regClass) index ranges

/-- A range in its place among ranges that are in the order of allocation. -/
def insert (r : LiveRange) : List LiveRange → List LiveRange
  | [] => [r]
  | s :: rest => if r.precedes s then r :: s :: rest else s :: insert r rest

end LiveRange

/-- The live ranges of all virtual registers, parameters and memory bases, in the order of
allocation. -/
def Function.liveRanges (f : Function) : List LiveRange :=
  let start := (f.params.map (·.id)).eraseDups.map fun id => (⟨id, none, 0, 0⟩ : LiveRange)
  let ranges := f.instructions.zipIdx.foldl
    (fun ranges (i, index) => i.operands.foldl (LiveRange.visitOperand index) ranges) start
  ranges.foldr LiveRange.insert []

end Retarget.Machine
