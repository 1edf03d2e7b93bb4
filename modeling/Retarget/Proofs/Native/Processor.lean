import Mathlib.Tactic.Ring
import Retarget.Proofs.Encoding.Bitmask
import Retarget.Proofs.Native.Compares
import Retarget.Proofs.Native.Constants

/-!
# What native code does to registers and memory

The processors of the two targets run moves, masks, shifts, extensions, loads and compares over
registers and bytes in memory, besides what registers alone make of the constants and compares
treated before (`Riscv.Processor.step_of_registers`, `AArch64.Processor.step_of_registers`).
Instructions that do not exist, such as a move between registers of two widths, have no next state.
Which offsets of loads can be encoded is left open.

On AArch64 a compare leaves four flags, from which each relation between the compared words can be
told (`ConditionFlags.holds_compare`).
-/

namespace Retarget

open Machine

namespace Target.Riscv

/-! ## RV32 -/

def nativeOp? (i : Instruction) : Option Op :=
  match i.opcode with
  | .native number => Op.all[number]?
  | .generic _ => none

theorem nativeOp?_eq {i : Instruction} (op : Op) (h : i.opcode = op.opcode) :
    nativeOp? i = some op := by
  rw [nativeOp?, h]
  cases op <;> rfl

/-- Registers, and the bytes in memory. -/
structure Processor where
  registers : Contents
  memory : Memory 32

namespace Processor

def read (s : Processor) (reg : RegId) : BitVec 32 := s.registers.read reg

def write (s : Processor) (reg : RegId) (value : BitVec 32) : Processor :=
  { s with registers := s.registers.write reg value }

variable {s : Processor} {i : Instruction} {reg r rd rs : RegId} {value : BitVec 32} {v : Int}

theorem read_write (h : reg ≠ zero) : (s.write reg value).read reg = value :=
  Contents.read_write h

theorem read_write_of_ne (h : r ≠ reg) : (s.write reg value).read r = s.read r :=
  Contents.read_write_of_ne h

@[simp] theorem memory_write : (s.write reg value).memory = s.memory := rfl

/-- What an operation with a source register and a constant computes.  Masks have 12 bits and are
extended with their sign, a shift is by less than a register, and what is loaded is extended with
its sign. -/
def word? (s : Processor) (op : Op) (x : BitVec 32) (v : Int) : Option (BitVec 32) :=
  match op with
  | .andi => if Word.fitsSigned v 12 then some (x &&& .ofInt 32 v) else none
  | .slli => if 0 ≤ v ∧ v < 32 then some (x <<< v.toNat) else none
  | .srli => if 0 ≤ v ∧ v < 32 then some (x >>> v.toNat) else none
  | .srai => if 0 ≤ v ∧ v < 32 then some (x.sshiftRight v.toNat) else none
  | .lb | .lh | .lw =>
    some ((s.memory.loadBits (x + .ofInt 32 v) op.accessBits).signExtend 32)
  | _ => none

def step (i : Instruction) (s : Processor) : Option Processor :=
  match Riscv.step i s.registers, nativeOp? i, (i.operands.map (·.kind) : List Operand.Kind) with
  | some registers, _, _ => some { s with registers := registers }
  | none, some .mv, [.physicalReg rd, .physicalReg rs] => some (s.write rd (s.read rs))
  | none, some op, [.physicalReg rd, .physicalReg rs, .immediate v] =>
    (s.word? op (s.read rs) v).map (s.write rd)
  | _, _, _ => none

def run (is : List Instruction) (s : Processor) : Option Processor :=
  is.foldlM (fun s i => step i s) s

theorem run_cons (i : Instruction) (is : List Instruction) (s : Processor) :
    run (i :: is) s = (step i s).bind (run is) := rfl

theorem step_of_registers {σ : Contents} (h : Riscv.step i s.registers = some σ) :
    step i s = some { s with registers := σ } := by
  rw [step, h]

theorem run_of_registers {is : List Instruction} {σ : Contents}
    (h : Riscv.run is s.registers = some σ) : run is s = some { s with registers := σ } := by
  induction is generalizing s with
  | nil =>
    cases h
    rfl
  | cons i is ih =>
    obtain ⟨τ, hτ, hrest⟩ := Option.bind_eq_some_iff.mp h
    rw [run_cons, step_of_registers hτ]
    exact ih (s := { s with registers := τ }) hrest

theorem step_move (hop : i.opcode = Op.mv.opcode)
    (hkinds : i.operands.map (·.kind) = [.physicalReg rd, .physicalReg rs]) (s : Processor) :
    step i s = some (s.write rd (s.read rs)) := by
  have hnone : Riscv.step i s.registers = none := by rw [Riscv.step, hkinds]
  rw [step, hnone, nativeOp?_eq _ hop, hkinds]

theorem step_word {op : Op} (hop : i.opcode = op.opcode)
    (hkinds : i.operands.map (·.kind) = [.physicalReg rd, .physicalReg rs, .immediate v])
    (h : s.word? op (s.read rs) v = some value) : step i s = some (s.write rd value) := by
  have hnone : Riscv.step i s.registers = none := by
    have hlookup : constantForms.lookup op.opcode = none := by
      cases op <;> first | rfl | cases h
    rw [Riscv.step, hkinds]
    show (if Word.fitsSigned v 12 then (constantForms.lookup i.opcode).map _ else none) = none
    rw [hop, hlookup]
    exact ite_self none
  rw [step, hnone, nativeOp?_eq _ hop, hkinds]
  cases op <;> (dsimp only; rw [h]; rfl)

end Processor

end Target.Riscv

namespace Target.AArch64

/-! ## AArch64 -/

def nativeOp? (i : Instruction) : Option Op :=
  match i.opcode with
  | .native number => Op.all[number]?
  | .generic _ => none

theorem nativeOp?_eq {i : Instruction} (op : Op) (h : i.opcode = op.opcode) :
    nativeOp? i = some op := by
  rw [nativeOp?, h]
  cases op <;> rfl

/-! ### Views -/

theorem withWidth_of_view {reg : RegId} {top view : Register}
    (htop : registers.get? (registers.root reg) = some top)
    (hviews : top.views.filterMap registers.get? = [view]) (hbits : top.bits = 64)
    (hviewBits : view.bits = 32) (bits : Nat) :
    registers.withWidth reg bits = if bits ≤ 32 then view.id else top.id := by
  rw [Registers.withWidth, htop]
  dsimp only
  rw [hviews, List.foldl_cons, List.foldl_nil, Registers.betterFor, hbits, hviewBits]
  split_ifs with hfits hwide hwide
  · simp at hwide
  · rfl
  · rfl
  · simp at hwide

section Views

variable {reg : RegId} (hreg : IsGeneralPurpose reg)
include hreg

theorem IsGeneralPurpose.withWidth_eq (bits : Nat) :
    registers.withWidth reg bits = if bits ≤ 32 then w (reg % 31) else x (reg % 31) := by
  have hfamily : ∀ reg < s 0, (registers.get? (registers.root reg)).map (fun top =>
      (top.id, top.bits, top.views)) = some (x (reg % 31), 64, [w (reg % 31)]) := by
    decide +kernel
  have hnarrow : ∀ n < 31, (registers.get? (w n)).map (fun view => (view.id, view.bits)) =
      some (w n, 32) := by
    decide +kernel
  obtain ⟨top, htop, h⟩ := Option.map_eq_some_iff.mp (hfamily reg hreg)
  obtain ⟨view, hview, h'⟩ :=
    Option.map_eq_some_iff.mp (hnarrow (reg % 31) (Nat.mod_lt _ (by decide)))
  obtain ⟨hid, h⟩ := Prod.mk.inj h
  obtain ⟨hbits, hviews⟩ := Prod.mk.inj h
  obtain ⟨hviewId, hviewBits⟩ := Prod.mk.inj h'
  have hviews' : top.views.filterMap registers.get? = [view] := by
    rw [hviews, List.filterMap_cons_some hview, List.filterMap_nil]
  rw [withWidth_of_view htop hviews' hbits hviewBits, hviewId, hid]

theorem IsGeneralPurpose.withWidth (bits : Nat) :
    IsGeneralPurpose (registers.withWidth reg bits) := by
  have hindex : reg % 31 < 31 := Nat.mod_lt _ (by decide)
  have hlast : s 0 = 62 := rfl
  rw [hreg.withWidth_eq, IsGeneralPurpose, hlast, w, x]
  split_ifs
  · exact Nat.lt_trans hindex (by decide)
  · exact Nat.add_lt_add_left hindex 31

theorem IsGeneralPurpose.withWidth_self (hwidth : AArch64.widthOf reg = 32) :
    registers.withWidth reg 32 = reg := by
  have hbank : ∀ reg < s 0, AArch64.widthOf reg = 32 → reg % 31 = reg := by decide +kernel
  rw [hreg.withWidth_eq, if_pos (Nat.le_refl 32), w, hbank reg hreg hwidth]

theorem IsGeneralPurpose.widthOf_withWidth (bits : Nat) :
    AArch64.widthOf (registers.withWidth reg bits) = registerWidth bits := by
  have hbanks : ∀ n < 31, AArch64.widthOf (w n) = 32 ∧ AArch64.widthOf (x n) = 64 := by
    decide +kernel
  have hbank := hbanks (reg % 31) (Nat.mod_lt _ (by decide))
  rw [hreg.withWidth_eq, registerWidth]
  split_ifs
  exacts [hbank.1, hbank.2]

theorem IsGeneralPurpose.isGeneral_iff {o : Operand} (ho : o.kind = .physicalReg reg)
    (bits : Nat) : isGeneral registers bits o ↔ AArch64.widthOf reg = bits := by
  have hfile : ∀ reg < s 0, (registers.get? reg).any (fun r => !r.isFloat) := by decide +kernel
  have hr := hfile reg hreg
  rw [isGeneral, Operand.reg?, ho, AArch64.widthOf]
  dsimp only [Option.bind_some]
  cases hget : registers.get? reg with
  | none =>
    rw [hget] at hr
    cases hr
  | some r =>
    rw [hget] at hr
    rw [Option.any_some] at hr ⊢
    rw [hr, Bool.and_true, beq_iff_eq]
    rfl

end Views

/-! ### Flags -/

/-- What a compare leaves: whether the difference is negative, whether it is zero, whether nothing
was borrowed, and whether it leaves the signed range. -/
structure ConditionFlags where
  negative : Bool
  zero : Bool
  carry : Bool
  overflow : Bool

namespace ConditionFlags

def compare {n : Nat} (x y : BitVec n) : ConditionFlags where
  negative := (x - y).msb
  zero := x - y == 0
  carry := !x.ult y
  overflow := BitVec.ssubOverflow x y

/-- Whether the flags say that a relation holds. -/
def holds (flags : ConditionFlags) : Relation → Bool
  | .eq => flags.zero
  | .ne => !flags.zero
  | .lt => flags.negative != flags.overflow
  | .gt => !flags.zero && flags.negative == flags.overflow
  | .le => flags.zero || flags.negative != flags.overflow
  | .ge => flags.negative == flags.overflow
  | .ltu => !flags.carry

theorem zero_compare {n : Nat} (x y : BitVec n) : (compare x y).zero = (x == y) := by
  rw [compare, Bool.eq_iff_iff, beq_iff_eq, beq_iff_eq, BitVec.sub_eq_iff_eq_add]
  rw [show (0 : BitVec n) + y = y from BitVec.zero_add y]

/-- The sign of a difference is wrong exactly if the difference leaves the signed range. -/
theorem less_compare {n : Nat} (x y : BitVec n) :
    ((compare x y).negative != (compare x y).overflow) = x.slt y := by
  cases n with
  | zero =>
    rw [BitVec.eq_nil x, BitVec.eq_nil y]
    rfl
  | succ n =>
  have hx := BitVec.two_mul_toInt_lt (x := x)
  have hx' := BitVec.le_two_mul_toInt (x := x)
  have hy := BitVec.two_mul_toInt_lt (x := y)
  have hy' := BitVec.le_two_mul_toInt (x := y)
  have hmodulus : ((2 ^ (n + 1) : Nat) : Int) = 2 ^ (n + 1) := by
    push_cast
    rfl
  have hhalf : (2 : Int) ^ (n + 1) = 2 * 2 ^ n := by ring
  rw [compare, BitVec.msb_eq_toInt, BitVec.toInt_sub, BitVec.ssubOverflow, BitVec.slt,
    Nat.add_sub_cancel]
  rw [hhalf] at hx hx' hy hy' hmodulus
  generalize x.toInt = a at *
  generalize y.toInt = b at *
  generalize (2 ^ n : Int) = m at *
  generalize (2 ^ (n + 1) : Nat) = modulus at *
  -- the difference wraps around at most once, and then its sign changes
  have hbmod : (a - b).bmod modulus = if a - b < -m then a - b + modulus else
      if m ≤ a - b then a - b - modulus else a - b := by
    split_ifs
    · rw [← Int.add_bmod_right]
      exact Int.bmod_eq_of_le (by omega) (by omega)
    · rw [← Int.sub_bmod_right]
      exact Int.bmod_eq_of_le (by omega) (by omega)
    · exact Int.bmod_eq_of_le (by omega) (by omega)
  rw [hbmod, Bool.eq_iff_iff, bne_iff_ne, Ne, Bool.eq_iff_iff, Bool.or_eq_true]
  clear hbmod
  simp only [decide_eq_true_eq]
  split_ifs <;> omega

/-- **A relation holds of two words exactly if the flags of their difference say so.** -/
theorem holds_compare {n : Nat} (x y : BitVec n) (r : Relation) :
    (compare x y).holds r = r.holds x y := by
  have hless := less_compare x y
  have hnot : ((compare x y).negative == (compare x y).overflow) = !x.slt y := by
    rw [← hless, bne, Bool.not_not]
  have hle : x.sle y = (x == y || x.slt y) := by
    rw [Bool.eq_iff_iff, Bool.or_eq_true, beq_iff_eq, BitVec.sle_iff_toInt_le,
      BitVec.slt_iff_toInt_lt, ← BitVec.toInt_inj]
    omega
  cases r with
  | eq => exact zero_compare x y
  | ne => exact congrArg not (zero_compare x y)
  | lt => exact hless
  | gt =>
    have hgt : y.slt x = !x.sle y := by rw [BitVec.sle_eq_not_slt, Bool.not_not]
    rw [holds, zero_compare, hnot, Relation.holds, hgt, hle, Bool.not_or]
  | le => rw [holds, zero_compare, hless, Relation.holds, hle]
  | ge => rw [holds, hnot, Relation.holds, BitVec.sle_eq_not_slt]
  | ltu => exact Bool.not_not _

end ConditionFlags

/-! ### Operations -/

/-- What an operation takes of its source, and for how wide destinations there is one. -/
structure Extension where
  bits : Nat
  isSigned : Bool
  widths : List Nat

/-- The low bits of the source, extended. -/
def Extension.word {n : Nat} (e : Extension) (x : BitVec n) (width : Nat) : BitVec width :=
  if e.isSigned then (x.setWidth e.bits).signExtend width else (x.setWidth e.bits).setWidth width

namespace Op

theorem isSelected_opcode (op : Op) : op.opcode.isSelected := by
  cases op <;> rfl

def extension? : Op → Option Extension
  | sxtb => some ⟨8, true, [32, 64]⟩
  | sxth => some ⟨16, true, [32, 64]⟩
  | sxtw => some ⟨32, true, [64]⟩
  | uxtb => some ⟨8, false, [32]⟩
  | uxth => some ⟨16, false, [32]⟩
  | _ => none

/-- The relation that an operation sets its destination for. -/
def condition? : Op → Option Relation
  | csetEq => some .eq
  | csetNe => some .ne
  | csetLt => some .lt
  | csetGt => some .gt
  | csetLe => some .le
  | csetGe => some .ge
  | csetLo => some .ltu
  | _ => none

end Op

/-! ### Instructions -/

/-- Registers, the flags, and the bytes in memory. -/
structure Processor where
  registers : Contents
  flags : ConditionFlags
  memory : Memory 64

namespace Processor

def read (s : Processor) (reg : RegId) : BitVec (widthOf reg) := s.registers.read reg

def write (s : Processor) (reg : RegId) (value : BitVec (widthOf reg)) : Processor :=
  { s with registers := s.registers.write reg value }

def compare {n : Nat} (s : Processor) (x y : BitVec n) : Processor :=
  { s with flags := .compare x y }

def address (s : Processor) (base : RegId) (offset : Int) : BitVec 64 :=
  s.registers (AArch64.registers.root base) + .ofInt 64 offset

/-- What an instruction does.  Moves, compares and masks are of registers of one width, narrow loads
are to 32-bit registers, addresses are in 64-bit ones, and constants have to be encodable. -/
def step (i : Instruction) (s : Processor) : Option Processor :=
  match nativeOp? i, (i.operands.map (·.kind) : List Operand.Kind) with
  | some .movR, [.physicalReg rd, .physicalReg rs] =>
    if widthOf rs = widthOf rd then some (s.write rd ((s.read rs).setWidth _)) else none
  | some .cmpR, [.physicalReg rn, .physicalReg rm] =>
    if widthOf rm = widthOf rn then some (s.compare (s.read rn) ((s.read rm).setWidth _)) else none
  | some .cmpI, [.physicalReg rn, .immediate v] =>
    if Word.isUint v 12 then some (s.compare (s.read rn) (.ofInt _ v)) else none
  | some .andI, [.physicalReg rd, .physicalReg rs, .immediate v] =>
    if widthOf rs = widthOf rd ∧ IsBitmask (widthOf rd) (Word.low (widthOf rd) v) then
      some (s.write rd ((s.read rs).setWidth _ &&& .ofInt _ v))
    else none
  | some op, [.physicalReg rd, .physicalReg base, .immediate offset] =>
    let width := op.accessBits (widthOf rd)
    if op.role = .load ∧ (width = widthOf rd ∨ widthOf rd = 32) ∧ widthOf base = 64 then
      some (s.write rd ((s.memory.loadBits (s.address base offset) width).setWidth _))
    else none
  | some op, [.physicalReg rd, .physicalReg rs] =>
    op.extension?.bind fun e =>
      if widthOf rd ∈ e.widths then some (s.write rd (e.word (s.read rs) _)) else none
  | some op, [.physicalReg rd] =>
    op.condition?.map fun r => s.write rd (bit _ (s.flags.holds r))
  | _, _ => (AArch64.step i s.registers).map fun registers => { s with registers := registers }

def run (is : List Instruction) (s : Processor) : Option Processor :=
  is.foldlM (fun s i => step i s) s

theorem run_cons (i : Instruction) (is : List Instruction) (s : Processor) :
    run (i :: is) s = (step i s).bind (run is) := rfl

theorem run_singleton (i : Instruction) (s : Processor) : run [i] s = step i s :=
  Option.bind_fun_some (step i s)

variable {s : Processor} {i : Instruction} {reg r rd rs rn rm base : RegId} {v offset : Int}

@[simp] theorem read_write {value : BitVec (widthOf reg)} : (s.write reg value).read reg = value :=
  Contents.read_write

@[simp] theorem memory_write {value : BitVec (widthOf reg)} :
    (s.write reg value).memory = s.memory := rfl

theorem setWidth_read {bits : Nat} (h : bits ≤ widthOf reg) :
    (s.read reg).setWidth bits = (s.registers (AArch64.registers.root reg)).setWidth bits := by
  rw [read, Contents.read, BitVec.setWidth_setWidth_of_le _ h]

/-- What is written to a view is in the whole register, with zeros above it. -/
theorem read_write_view (h : AArch64.registers.root r = AArch64.registers.root reg)
    {value : BitVec (widthOf r)} : (s.write r value).read reg = value.setWidth (widthOf reg) := by
  have hself : s.registers.write r value (AArch64.registers.root r) = value.setWidth 64 :=
    Function.update_self ..
  show (s.registers.write r value (AArch64.registers.root reg)).setWidth _ = _
  rw [← h, hself, BitVec.setWidth_setWidth_of_le _ (Contents.widthOf_le reg)]

theorem registers_write_of_ne {value : BitVec (widthOf reg)} (h : r ≠ AArch64.registers.root reg) :
    (s.write reg value).registers r = s.registers r := Contents.write_of_ne h

theorem step_of_registers {σ : Contents} (h : AArch64.step i s.registers = some σ) :
    step i s = some { s with registers := σ } := by
  have hstep := h
  rw [AArch64.step] at h
  split at h
  · next hkinds =>
    obtain ⟨hop, -⟩ := Option.ite_none_right_eq_some.mp h
    rw [step, nativeOp?_eq _ hop, hkinds, hstep]
    rfl
  · next hkinds =>
    obtain ⟨hop, -⟩ := Option.ite_none_right_eq_some.mp h
    rw [step, nativeOp?_eq _ hop, hkinds, hstep]
    rfl
  · cases h

theorem step_move (hop : i.opcode = Op.movR.opcode)
    (hkinds : i.operands.map (·.kind) = [.physicalReg rd, .physicalReg rs]) (s : Processor) :
    step i s = if widthOf rs = widthOf rd then some (s.write rd ((s.read rs).setWidth _))
      else none := by
  rw [step, nativeOp?_eq _ hop, hkinds]

theorem step_compare_register (hop : i.opcode = Op.cmpR.opcode)
    (hkinds : i.operands.map (·.kind) = [.physicalReg rn, .physicalReg rm])
    (hwidth : widthOf rm = widthOf rn) (s : Processor) :
    step i s = some (s.compare (s.read rn) ((s.read rm).setWidth _)) := by
  rw [step, nativeOp?_eq _ hop, hkinds]
  exact if_pos hwidth

theorem step_compare_constant (hop : i.opcode = Op.cmpI.opcode)
    (hkinds : i.operands.map (·.kind) = [.physicalReg rn, .immediate v])
    (hv : Word.isUint v 12) (s : Processor) :
    step i s = some (s.compare (s.read rn) (.ofInt _ v)) := by
  rw [step, nativeOp?_eq _ hop, hkinds]
  exact if_pos hv

theorem step_mask (hop : i.opcode = Op.andI.opcode)
    (hkinds : i.operands.map (·.kind) = [.physicalReg rd, .physicalReg rs, .immediate v])
    (hwidth : widthOf rs = widthOf rd) (hv : IsBitmask (widthOf rd) (Word.low (widthOf rd) v))
    (s : Processor) : step i s = some (s.write rd ((s.read rs).setWidth _ &&& .ofInt _ v)) := by
  rw [step, nativeOp?_eq _ hop, hkinds]
  exact if_pos ⟨hwidth, hv⟩

theorem step_extend {op : Op} {e : Extension} (hop : i.opcode = op.opcode)
    (he : op.extension? = some e)
    (hkinds : i.operands.map (·.kind) = [.physicalReg rd, .physicalReg rs]) (s : Processor) :
    step i s =
      if widthOf rd ∈ e.widths then some (s.write rd (e.word (s.read rs) _)) else none := by
  rw [step, nativeOp?_eq _ hop, hkinds]
  cases op <;> cases he <;> rfl

theorem step_set {r : Relation} (hop : i.opcode = (Op.setOn r).opcode)
    (hkinds : i.operands.map (·.kind) = [.physicalReg rd]) (s : Processor) :
    step i s = some (s.write rd (bit _ (s.flags.holds r))) := by
  rw [step, nativeOp?_eq _ hop, hkinds]
  cases r <;> rfl

theorem step_load {op : Op} (hop : i.opcode = op.opcode) (hrole : op.role = .load)
    (hkinds : i.operands.map (·.kind) = [.physicalReg rd, .physicalReg base, .immediate offset])
    (hwidth : op.accessBits (widthOf rd) = widthOf rd ∨ widthOf rd = 32)
    (hbase : widthOf base = 64) (s : Processor) :
    step i s = some (s.write rd ((s.memory.loadBits (s.address base offset)
      (op.accessBits (widthOf rd))).setWidth _)) := by
  rw [step, nativeOp?_eq _ hop, hkinds]
  cases op <;> cases hrole <;> exact if_pos ⟨rfl, hwidth, hbase⟩

end Processor

end Target.AArch64

end Retarget
