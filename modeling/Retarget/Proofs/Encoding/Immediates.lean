import Mathlib.Data.Int.Notation
import Retarget.Proofs.Encoding.Bitmask
import Retarget.Proofs.Encoding.Constants

/-!
# Constants of native code

The constant fields of arithmetic instructions are limited, some by the width of the destination
register (`AArch64.Op.Encodes`, `Riscv.Op.Encodes`).  Selection meets these limits for instructions
that are ready (`encodable_of_becomes`), but for one kind of constant: legalization takes a constant
for a mask by its low bits, and those above are written out with it (`Arch.wideMask?`).
-/

namespace Retarget

open Machine Target

/-- The constant at a position among the operands. -/
def Machine.Instruction.constant? (i : Instruction) (k : Nat) : Option Int :=
  (i.operand? k).bind (·.immediate?)

namespace Target

/-- The constant is a bitmask of `bits` bits, written with a sign or without: above it all bits are
zeros or all are ones. -/
def AArch64.IsMask (bits : Nat) (n : Int) : Prop :=
  (-(Word.modulus bits : Int) ≤ n ∧ n < Word.modulus bits) ∧ IsBitmask bits (Word.low bits n)

instance (bits : Nat) (n : Int) : Decidable (AArch64.IsMask bits n) :=
  inferInstanceAs (Decidable (_ ∧ _))

/-- The fields that the operation has for constants can hold those of the instruction. -/
def AArch64.Op.Encodes (op : AArch64.Op) (i : Instruction) : Prop :=
  let bits := Arch.aarch64.registerBits (i.operand? 0)
  match op with
  | addR | addI | subR | subI => ∀ n ∈ i.constant? 2, 0 ≤ n ∧ n ≤ 4095
  | cmpR | cmpI => ∀ n ∈ i.constant? 1, 0 ≤ n ∧ n ≤ 4095
  | andR | andI | orrR | orrI | eorR | eorI =>
    ∀ n ∈ i.constant? 2, (bits = 32 ∨ bits = 64) ∧ IsMask bits n
  | lslR | lslI | lsrR | lsrI => ∀ n ∈ i.constant? 2, 0 ≤ n ∧ n < bits
  | movk => (∀ n ∈ i.constant? 1, 0 ≤ n ∧ n ≤ 65535) ∧
      ∀ n ∈ i.constant? 2, 16 ∣ n ∧ 0 ≤ n ∧ n < bits
  | _ => True

/-- The field that the operation has for a constant can hold that of the instruction. -/
def Riscv.Op.Encodes (op : Riscv.Op) (i : Instruction) : Prop :=
  match op with
  | addi | andi | ori | xori | slti | sltiu => ∀ n ∈ i.constant? 2, -2048 ≤ n ∧ n ≤ 2047
  | slli | srli | srai => ∀ n ∈ i.constant? 2, 0 ≤ n ∧ n ≤ 31
  | _ => True

instance (op : AArch64.Op) (i : Instruction) : Decidable (op.Encodes i) := by
  unfold AArch64.Op.Encodes
  cases op <;> infer_instance

instance (op : Riscv.Op) (i : Instruction) : Decidable (op.Encodes i) := by
  unfold Riscv.Op.Encodes
  cases op <;> infer_instance

end Target

/-- The constants of a native instruction can be encoded. -/
def Arch.Encodable (a : Arch) (i : Instruction) : Prop :=
  match i.opcode with
  | .generic _ => True
  | .native number =>
    match a with
    | aarch64 => ∀ op ∈ Target.AArch64.Op.all[number]?, op.Encodes i
    | riscv32 => ∀ op ∈ Target.Riscv.Op.all[number]?, op.Encodes i

/-! ## Masks that are too wide -/

namespace Target.AArch64

/-- The operation takes masks for constants. -/
def Op.isLogical : Op → Bool
  | andR | andI | orrR | orrI | eorR | eorI => true
  | _ => false

/-- How wide the register is that the instruction masks. -/
def maskBits? (i : Instruction) : Option Nat :=
  match i.opcode with
  | .generic .and | .generic .or | .generic .xor => some (registerWidth (destWidth i))
  | .generic _ => none
  | .native number =>
    (Op.all[number]?.filter (·.isLogical)).map fun _ => Arch.aarch64.registerBits (i.operand? 0)

/-- The low bits of the constant are taken for a mask, but those above are neither all zeros nor all
ones. -/
def isWideMask (bits : Nat) (n : Int) : Bool :=
  isLogicalImmediate n bits &&
    !(decide (-(Word.modulus bits : Int) ≤ n) && decide (n < Word.modulus bits))

end Target.AArch64

/-- The constant of a bitwise instruction, before selection or after it, of which only the low bits
are a mask of the width of its register. -/
def Arch.wideMask? (a : Arch) (i : Instruction) : Option Int :=
  match a with
  | aarch64 => (Target.AArch64.maskBits? i).bind fun bits =>
      (i.constant? 2).filter (Target.AArch64.isWideMask bits)
  | riscv32 => none

namespace Target

variable {i j : Instruction}

theorem AArch64.Op.getElem?_number (op : AArch64.Op) : AArch64.Op.all[op.number]? = some op := by
  cases op <;> rfl

theorem AArch64.Op.encodable (op : AArch64.Op) (hcode : i.opcode = op.opcode) (h : op.Encodes i) :
    Arch.aarch64.Encodable i := by
  rw [Arch.Encodable, hcode]
  intro op' hop'
  rw [op.getElem?_number] at hop'
  exact Option.some.inj hop' ▸ h

theorem Riscv.Op.encodable (op : Riscv.Op) (hcode : i.opcode = op.opcode) (h : op.Encodes i) :
    Arch.riscv32.Encodable i := by
  have hself : Riscv.Op.all[op.number]? = some op := by cases op <;> rfl
  rw [Arch.Encodable, hcode]
  intro op' hop'
  rw [hself] at hop'
  exact Option.some.inj hop' ▸ h

/-! ## Widths of registers -/

/-- **A home has the register width of the values in it.** -/
theorem AArch64.registerBits_withWidth {root : RegId} (h : root ∈ Arch.aarch64.target.homes)
    (bits : Nat) : (registers.get? (registers.withWidth root bits)).map (·.bits) =
      some (registerWidth bits) := by
  have hfamily : ∀ root ∈ Arch.aarch64.target.homes,
      (registers.get? (registers.root root)).map (fun top => (top.bits,
        (registers.get? top.id).map (·.bits), (top.views.filterMap registers.get?).map fun view =>
          (view.bits, (registers.get? view.id).map (·.bits)))) =
        some (64, some 64, [(32, some 32)]) := by
    decide +kernel
  obtain ⟨top, htop, hbits⟩ := Option.map_eq_some_iff.mp (hfamily root h)
  obtain ⟨htopBits, hbits⟩ := Prod.mk.inj hbits
  obtain ⟨htopGet, hviews⟩ := Prod.mk.inj hbits
  obtain ⟨view, rest, hview, hviewBits, hrest⟩ := List.map_eq_cons_iff.mp hviews
  obtain ⟨hviewBits, hviewGet⟩ := Prod.mk.inj hviewBits
  rw [List.map_eq_nil_iff] at hrest
  subst hrest
  rw [Registers.withWidth, htop]
  dsimp only
  rw [hview, List.foldl_cons, List.foldl_nil, Registers.betterFor, htopBits, hviewBits,
    registerWidth]
  split_ifs with hnarrow hwide hwide
  · simp at hwide
  · exact hviewGet
  · exact htopGet
  · simp at hwide

/-! ## AArch64 -/

namespace AArch64

variable {site : Site} {i j : Instruction} {op : GenericOp} {r : Replacement} {dest : Operand}

theorem registerWidth_eq (bits : Nat) : registerWidth bits = 32 ∨ registerWidth bits = 64 := by
  rw [registerWidth]
  split_ifs <;> simp

/-- What is taken for a mask depends on the width of the register only. -/
theorem isLogicalImmediate_registerWidth (n : Int) (bits : Nat) :
    isLogicalImmediate n (registerWidth bits) = isLogicalImmediate n bits := by
  have hwidth : (if 32 < registerWidth bits then 64 else 32) = if 32 < bits then 64 else 32 := by
    rw [registerWidth]
    split_ifs <;> first | rfl | omega
  rw [isLogicalImmediate, isLogicalImmediate, hwidth]

theorem le_registerWidth {bits : Nat} (h : bits ≤ 64) : max bits 32 ≤ registerWidth bits := by
  rw [registerWidth]
  split_ifs <;> omega

theorem Op.wideMask?_eq_none (op : Op) (hcode : i.opcode = op.opcode)
    (hlogical : op.isLogical = false) : Arch.aarch64.wideMask? i = none := by
  have hnone : maskBits? i = none := by
    rw [maskBits?, hcode]
    show ((Op.all[op.number]?).filter (·.isLogical)).map _ = none
    rw [op.getElem?_number, Option.filter_some_neg (by simp [hlogical])]
    rfl
  rw [Arch.wideMask?, hnone]
  rfl

theorem Op.wideMask?_eq (op : Op) (hcode : i.opcode = op.opcode) (hlogical : op.isLogical) :
    Arch.aarch64.wideMask? i =
      (i.constant? 2).filter (isWideMask (Arch.aarch64.registerBits (i.operand? 0))) := by
  have hbits : maskBits? i = some (Arch.aarch64.registerBits (i.operand? 0)) := by
    rw [maskBits?, hcode]
    show ((Op.all[op.number]?).filter (·.isLogical)).map _ = _
    rw [op.getElem?_number, Option.filter_some_pos hlogical]
    rfl
  rw [Arch.wideMask?, hbits]
  rfl

/-- **A native instruction whose mask is too wide cannot be encoded.** -/
theorem wideMask?_of_encodable {number : Nat} (hi : i.opcode = .native number)
    (h : Arch.aarch64.Encodable i) : Arch.aarch64.wideMask? i = none := by
  rw [Option.eq_none_iff_forall_ne_some]
  intro n hn
  obtain ⟨bits, hbits, hn⟩ := Option.bind_eq_some_iff.mp hn
  obtain ⟨hconstant, hwide⟩ := Option.filter_eq_some_iff.mp hn
  rw [maskBits?, hi] at hbits
  obtain ⟨op, hop, rfl⟩ := Option.map_eq_some_iff.mp hbits
  obtain ⟨hop, hlogical⟩ := Option.filter_eq_some_iff.mp hop
  rw [Arch.Encodable, hi] at h
  have hmask : IsMask (Arch.aarch64.registerBits (i.operand? 0)) n := by
    have hencodes := h op hop
    cases op <;> first | exact (hencodes n hconstant).2 | cases hlogical
  rw [isWideMask, decide_eq_true hmask.1.1, decide_eq_true hmask.1.2, Bool.and_true, Bool.not_true,
    Bool.and_false] at hwide
  cases hwide

theorem bounds_of_wideMask? {bits : Nat} {n : Int} (hwide : Arch.aarch64.wideMask? i = none)
    (hbits : maskBits? i = some bits) (hn : i.constant? 2 = some n)
    (hlogical : isLogicalImmediate n bits) :
    -(Word.modulus bits : Int) ≤ n ∧ n < Word.modulus bits := by
  rw [Arch.wideMask?, hbits, Option.bind_some, hn] at hwide
  simpa [isWideMask, hlogical] using hwide

theorem wideMask?_congr {number : Nat} (hi : i.opcode = .native number) (hj : j.opcode = i.opcode)
    (hbits : Arch.aarch64.registerBits (j.operand? 0) = Arch.aarch64.registerBits (i.operand? 0))
    (hconstant : j.constant? 2 = i.constant? 2) :
    Arch.aarch64.wideMask? j = Arch.aarch64.wideMask? i := by
  rw [Arch.wideMask?, Arch.wideMask?, maskBits?, maskBits?, hj, hi, hbits, hconstant]

theorem encodable_congr (hcode : j.opcode = i.opcode)
    (hbits : Arch.aarch64.registerBits (j.operand? 0) = Arch.aarch64.registerBits (i.operand? 0))
    (hconstants : ∀ k, 0 < k → j.constant? k = i.constant? k) (h : Arch.aarch64.Encodable i) :
    Arch.aarch64.Encodable j := by
  rw [Arch.Encodable] at h ⊢
  rw [hcode]
  split at h
  · trivial
  · next number hnumber =>
    intro op hop
    have hop := h op hop
    unfold Op.Encodes at hop ⊢
    rwa [hbits, hconstants 1 Nat.one_pos, hconstants 2 Nat.two_pos]

theorem registerBits_of_isDest (h : dest.IsDest aarch64) (hfinal : dest.isFinal) :
    Arch.aarch64.registerBits (some dest) = registerWidth dest.size := by
  obtain ⟨kind, ty, regClass⟩ := dest
  cases kind with
  | physicalReg reg =>
    obtain ⟨root, hroot, hview⟩ := h.fits reg rfl
    show ((registers.get? reg).map (·.bits)).getD 0 = _
    rw [hview]
    exact congrArg (·.getD 0) (registerBits_withWidth hroot _)
  | virtualReg | parameter => cases hfinal
  | _ => cases h.isRegLike

theorem registerBits_of_ready (hi : i.Ready .aarch64) (hallocated : i.Allocated aarch64)
    (hop : i.generic? = some op) (hhas : op.hasDest) (hdest : i.operand? 0 = some dest) :
    Arch.aarch64.registerBits (some dest) = registerWidth dest.size :=
  registerBits_of_isDest ((hi.sized op hop 0 dest hdest).dest rfl hhas)
    (hallocated.final dest (List.mem_of_getElem? hdest))

theorem encodable_register {selected : Op} {constant : Option Op} {second : Operand}
    (hforms : binaryForms? op = some (selected, constant)) (hsecond : i.operand? 2 = some second)
    (hphysical : second.isPhysical) : Arch.aarch64.Encodable (i.setOpcode selected.opcode) := by
  refine selected.encodable rfl ?_
  have hnone : (i.setOpcode selected.opcode).constant? 2 = none := by
    show (i.operand? 2).bind (·.immediate?) = none
    obtain ⟨kind, ty, regClass⟩ := second
    rw [hsecond]
    cases kind <;> first | rfl | cases hphysical
  cases op <;> cases hforms <;> simp [Op.Encodes, hnone]

/-- Constant forms have the constants that there is room for, but for masks that are too wide. -/
theorem encodable_constant (hi : i.Ready .aarch64) (hallocated : i.Allocated aarch64)
    (hwide : Arch.aarch64.wideMask? i = none) (hop : i.generic? = some op)
    {inRegister selected : Op} {second : Operand}
    (hforms : binaryForms? op = some (inRegister, some selected))
    (hsecond : i.operand? 2 = some second) :
    Arch.aarch64.Encodable (i.setOpcode selected.opcode) := by
  refine selected.encodable rfl ?_
  have htakes : ∀ n ∈ i.constant? 2, Arch.aarch64.Takes (destWidth i) n op := fun n hn =>
    hi.constant op hop n hn
  obtain ⟨dest, hdest⟩ : ∃ dest, i.operand? 0 = some dest := by
    have hlength := (List.getElem?_eq_some_iff.mp hsecond).1
    exact ⟨i.operands[0], List.getElem?_eq_getElem (by omega)⟩
  have hwidth : destWidth i = dest.size := by rw [destWidth, hdest]
  rw [hwidth] at htakes
  have hbits : op.hasDest → Arch.aarch64.registerBits ((i.setOpcode selected.opcode).operand? 0) =
      registerWidth dest.size := by
    intro hhas
    show Arch.aarch64.registerBits (i.operand? 0) = _
    rw [hdest]
    exact registerBits_of_ready hi hallocated hop hhas hdest
  cases op with
  | add | sub =>
    cases hforms
    exact htakes
  | and | or | xor =>
    cases hforms
    intro n hn
    have hlogical : isLogicalImmediate n dest.size := htakes n hn
    rw [hbits rfl]
    refine ⟨registerWidth_eq _, bounds_of_wideMask? hwide ?_ hn ?_,
      isBitmask_of_isLogicalImmediate hlogical⟩
    · rw [maskBits?, Instruction.generic?_eq_some hop, hwidth]
    · rwa [isLogicalImmediate_registerWidth]
  | lsl | lsr =>
    cases hforms
    intro n hn
    rw [hbits rfl]
    obtain ⟨hpos, hlt⟩ := htakes n hn
    have hsize : dest.size ≤ 64 := (hi.sized _ hop 0 dest hdest).allowed
    have hle := le_registerWidth hsize
    exact ⟨hpos, by omega⟩
  | _ => cases hforms

/-- What is compared stands one position further to the front without the destination. -/
theorem encodable_compare (hi : i.Ready .aarch64) (hop : i.generic? = some op) {selected : Op}
    {second : Operand} (hsecond : i.operand? 2 = some second)
    (hselected : op = .cmp ∧ (selected = .cmpR ∧ second.isImmediate = false ∨
      selected = .cmpI ∧ second.isImmediate) ∨ op = .cmpf ∧ selected = .fcmp) :
    Arch.aarch64.Encodable ((i.setOpcode selected.opcode).eraseOperand 0) := by
  refine selected.encodable rfl ?_
  have hconstant : ((i.setOpcode selected.opcode).eraseOperand 0).constant? 1 = i.constant? 2 := by
    show (i.operands.eraseIdx 0)[1]?.bind _ = _
    rw [List.getElem?_eraseIdx_of_ge (Nat.zero_le 1)]
    rfl
  rcases hselected with ⟨rfl, ⟨rfl, hnone⟩ | ⟨rfl, -⟩⟩ | ⟨rfl, rfl⟩
  · intro n hn
    rw [hconstant, Instruction.constant?, hsecond] at hn
    rw [Operand.isImmediate_iff.mpr ⟨n, hn⟩] at hnone
    cases hnone
  · intro n hn
    rw [hconstant] at hn
    exact hi.constant .cmp hop n hn
  · trivial

theorem encodable_moveField {value : Int} {shift : Nat} (hdvd : 16 ∣ shift)
    (hlt : shift < Arch.aarch64.registerBits (some dest)) :
    ∀ j ∈ moveField dest value shift, Arch.aarch64.Encodable j := by
  unfold moveField
  extract_lets field
  split
  · simp
  · rw [List.forall_mem_singleton]
    refine Op.movk.encodable rfl ⟨?_, ?_⟩
    · rintro n ⟨⟩
      exact ⟨Int.emod_nonneg _ (by decide), Int.le_of_lt_add_one (Int.emod_lt_of_pos _ (by decide))⟩
    · rintro n ⟨⟩
      exact ⟨Int.natCast_dvd_natCast.mpr hdvd, Int.natCast_nonneg _, Int.ofNat_lt.mpr hlt⟩

theorem of_mem_fieldShifts {width shift : Nat} (h : shift ∈ fieldShifts width) :
    16 ∣ shift ∧ shift < width := by
  obtain ⟨k, hk, rfl⟩ := List.mem_map.mp h
  rw [List.mem_range] at hk
  exact ⟨Nat.dvd_mul_right 16 _, by omega⟩

theorem encodable_mask (hi : i.Ready .aarch64) (hallocated : i.Allocated aarch64)
    (hop : i.generic? = some .trunc) (hdest : i.operand? 0 = some dest) (hnarrow : dest.size < 32) :
    Arch.aarch64.Encodable ((i.push (.immediate (Word.modulus dest.size - 1 : Nat)
      dest.ty)).setOpcode Op.andI.opcode) := by
  refine Op.andI.encodable rfl fun n hn => ?_
  have hlength : i.operands.length = 2 := by
    have hform := hallocated.form
    rw [Instruction.generic?_eq_some hop] at hform
    simpa [GenericOp.widths, GenericOp.layouts] using hform
  have hn : (Word.modulus dest.size - 1 : Nat) = n := by
    replace hn : (i.operands ++ [_])[2]?.bind _ = some n := hn
    rw [List.getElem?_append_right (by omega), hlength] at hn
    exact Option.some.inj hn
  have hbits : Arch.aarch64.registerBits (((i.push (.immediate (Word.modulus dest.size - 1 : Nat)
      dest.ty)).setOpcode Op.andI.opcode).operand? 0) = 32 := by
    show Arch.aarch64.registerBits ((i.operands ++ [_])[0]?) = 32
    rw [List.getElem?_append_left (by omega), show i.operands[0]? = some dest from hdest,
      registerBits_of_ready hi hallocated hop rfl hdest, registerWidth, if_pos (by omega)]
  have hpos : 0 < dest.size := (hi.sized _ hop 0 dest hdest).allowed
  have hlt : Word.modulus dest.size < Word.modulus 32 := Nat.pow_lt_pow_right (by decide) hnarrow
  rw [hbits, ← hn]
  exact ⟨.inl rfl, ⟨by omega, by omega⟩, isBitmask_lowMask hpos hnarrow⟩

/-- **What is ready and allocated is selected into encodable code**, but for masks that are too
wide. -/
theorem Form.encodable (h : Form registers site op r) (hop : site.instruction.opcode = .generic op)
    (hi : site.instruction.Ready .aarch64) (hallocated : site.instruction.Allocated aarch64)
    (hwide : Arch.aarch64.wideMask? site.instruction = none) :
    ∀ j ∈ r.first :: r.rest, Arch.aarch64.Encodable j := by
  have hgeneric : site.instruction.generic? = some op := congrArg Opcode.generic? hop
  have hsingle : ∀ {j : Instruction} (selected : Op), j.opcode = selected.opcode →
      selected.Encodes j → ∀ j' ∈ [j], Arch.aarch64.Encodable j' := by
    intro j selected hcode hencodes
    rw [List.forall_mem_singleton]
    exact selected.encodable hcode hencodes
  cases h with
  | register hforms hsecond hphysical =>
    rw [List.forall_mem_singleton]
    exact encodable_register hforms hsecond hphysical
  | constant hforms hsecond =>
    rw [List.forall_mem_singleton]
    exact encodable_constant hi hallocated hwide hgeneric hforms hsecond
  | @compare _ _ relation _ _ hselected _ hsecond =>
    refine List.forall_mem_cons.mpr ⟨encodable_compare hi hgeneric hsecond hselected, ?_⟩
    exact hsingle (Op.setOn relation) rfl (by cases relation <;> trivial)
  | fused hselected _ hsecond =>
    rw [List.forall_mem_singleton]
    exact encodable_compare hi hgeneric hsecond hselected
  | smallConstant => exact hsingle .movI rfl trivial
  | @wideConstant _ dest _ _ _ hkind hdest _ _ hwidth =>
    refine List.forall_mem_cons.mpr ⟨Op.movI.encodable rfl trivial, fun j hj => ?_⟩
    obtain ⟨shift, hshift, hj⟩ := List.mem_flatMap.mp hj
    obtain ⟨hdvd, hlt⟩ := of_mem_fieldShifts hshift
    have hhas : op.hasDest := by rcases hkind with rfl | rfl | rfl <;> rfl
    refine encodable_moveField hdvd ?_ j hj
    rw [registerBits_of_ready hi hallocated hgeneric hhas hdest]
    exact Nat.lt_of_lt_of_le hlt (le_registerWidth (by omega))
  | move _ hselected => rcases hselected with rfl | rfl <;> exact hsingle _ rfl trivial
  | load | zextLoad => exact hsingle (loadOp _ _) rfl (by rw [loadOp]; split_ifs <;> trivial)
  | store => exact hsingle (storeOp _ _) rfl (by rw [storeOp]; split_ifs <;> trivial)
  | convert _ hselected =>
    refine hsingle _ rfl ?_
    simp only [List.mem_cons, List.not_mem_nil, or_false] at hselected
    rcases hselected with rfl | rfl | rfl | rfl | rfl | rfl <;> trivial
  | extend hselected =>
    refine hsingle _ rfl ?_
    simp only [List.mem_cons, List.not_mem_nil, or_false] at hselected
    rcases hselected with rfl | rfl | rfl <;> trivial
  | mask hdest _ hnarrow =>
    rw [List.forall_mem_singleton]
    exact encodable_mask hi hallocated hgeneric hdest hnarrow
  | stackAddress =>
    refine hsingle .addI rfl fun n hn => ?_
    obtain ⟨hpos, hle⟩ := hi.constant _ hgeneric n hn
    exact ⟨hpos, Int.le_trans hle (by decide)⟩
  | branch h =>
    intro j hj
    obtain ⟨selected, hjump, hcode⟩ := exists_jump_of_selectBranch h j hj
    exact selected.encodable hcode (by cases selected <;> trivial)
  | jump => exact hsingle .b rfl trivial
  | call => exact hsingle .bl rfl trivial
  | ret => exact hsingle .ret rfl trivial

theorem encodable_widenRegisters (h : Arch.aarch64.Encodable i) :
    Arch.aarch64.Encodable (widenRegisters i) :=
  encodable_congr (i := i) rfl (registerBits_widenRegisters i 0)
    (fun k _ => immediate?_widenRegisters i k) h

theorem opcode_narrowSource (i : Instruction) : (narrowSource registers i).opcode = i.opcode := by
  rw [narrowSource]
  split <;> rfl

theorem constant?_narrowSource (i : Instruction) (k : Nat) :
    (narrowSource registers i).constant? k = i.constant? k := by
  rw [narrowSource]
  split
  · rw [Instruction.constant?, Instruction.operand?, Instruction.operands_modifyOperand,
      List.getElem?_modify, Instruction.constant?, Instruction.operand?]
    cases i.operands[k]? with
    | none => rfl
    | some o =>
      obtain ⟨kind, ty, regClass⟩ := o
      show Operand.immediate? _ = _
      split
      · cases kind with
        | physicalReg reg =>
          dsimp only
          split <;> rfl
        | _ => rfl
      · rfl
  · rfl

theorem dest_narrowSource (i : Instruction) :
    (narrowSource registers i).operand? 0 = i.operand? 0 := by
  rw [narrowSource]
  split
  · rw [Instruction.operand?, Instruction.operands_modifyOperand,
      List.getElem?_modify_ne _ _ (by decide)]
    rfl
  · rfl

theorem encodable_narrowSource (h : Arch.aarch64.Encodable i) :
    Arch.aarch64.Encodable (narrowSource registers i) :=
  encodable_congr (opcode_narrowSource i) (by rw [dest_narrowSource])
    (fun k _ => constant?_narrowSource i k) h

theorem wideMask?_narrowSource (i : Instruction) :
    Arch.aarch64.wideMask? (narrowSource registers i) = Arch.aarch64.wideMask? i := by
  cases hcode : i.opcode with
  | native number =>
    exact wideMask?_congr hcode (opcode_narrowSource i) (by rw [dest_narrowSource])
      (constant?_narrowSource i 2)
  | generic op =>
    have hsame : narrowSource registers i = i := by
      rw [narrowSource, hcode]
      rfl
    rw [hsame]

end AArch64

/-! ## RV32 -/

namespace Riscv

variable {site : Site} {i j : Instruction} {op : GenericOp} {r : Replacement}

theorem encodable_shiftPair {dest source : Operand} {amount : Nat} (hamount : amount ≤ 31)
    {right : Op} (hright : right = .srai ∨ right = .srli) :
    ∀ j ∈ (shiftPair dest source amount right).first :: (shiftPair dest source amount right).rest,
      Arch.riscv32.Encodable j := by
  have hplaces : ∀ n, some (amount : Int) = some n → 0 ≤ n ∧ n ≤ 31 := by
    rintro n ⟨⟩
    omega
  refine List.forall_mem_cons.mpr ⟨Op.slli.encodable rfl hplaces, ?_⟩
  rw [shiftPair, List.forall_mem_singleton]
  rcases hright with rfl | rfl <;> exact Op.encodable _ rfl hplaces

/-- **What is ready is selected into encodable code.** -/
theorem Form.encodable (h : Form site op r) (hop : site.instruction.opcode = .generic op)
    (hi : site.instruction.Ready .riscv32) : ∀ j ∈ r.first :: r.rest, Arch.riscv32.Encodable j := by
  have hgeneric : site.instruction.generic? = some op := congrArg Opcode.generic? hop
  have htakes : ∀ n ∈ site.instruction.constant? 2,
      Arch.riscv32.Takes (AArch64.destWidth site.instruction) n op := fun n hn =>
    hi.constant op hgeneric n hn
  have hsingle : ∀ {j : Instruction} (selected : Op), j.opcode = selected.opcode →
      selected.Encodes j → ∀ j' ∈ [j], Arch.riscv32.Encodable j' := by
    intro j selected hcode hencodes
    rw [List.forall_mem_singleton]
    exact selected.encodable hcode hencodes
  cases h with
  | register hforms => exact hsingle _ rfl (by cases op <;> cases hforms <;> trivial)
  | constant hforms hnot =>
    refine hsingle _ rfl ?_
    cases op <;> cases hforms <;> first | exact htakes | exact absurd rfl hnot
  | @subtract second value hsecond hvalue =>
    refine hsingle .addi rfl fun n hn => ?_
    have hvalue : site.instruction.constant? 2 = some value := by
      rw [Instruction.constant?, hsecond]
      exact hvalue
    have hn : -value = n := by
      rw [Instruction.constant?, Instruction.operand?, Instruction.operands_modifyOperand,
        List.getElem?_modify_eq] at hn
      replace hn : ((site.instruction.operand? 2).map _).bind _ = some n := hn
      rw [hsecond] at hn
      exact Option.some.inj hn
    have hbounds := htakes value hvalue
    simp only [Arch.Takes] at hbounds
    omega
  | compare _ hselected =>
    rcases hselected with ⟨rfl | rfl, -⟩ | ⟨rfl | rfl, -⟩
    · exact hsingle .slt rfl trivial
    · exact hsingle .sltu rfl trivial
    · exact hsingle .slti rfl htakes
    · exact hsingle .sltiu rfl htakes
  | convert => exact hsingle .mv rfl trivial
  | signed hdest hsource hnarrow =>
    have hpos : 0 < _ := (hi.sized _ hgeneric 1 _ hsource).allowed
    exact encodable_shiftPair (by omega) (.inl rfl)
  | unsigned _ _ _ hkept => exact encodable_shiftPair (by omega) (.inr rfl)
  | @mask _ dest source kept _ _ _ hkept =>
    refine hsingle .andi rfl ?_
    rintro n ⟨⟩
    have hle : Word.modulus kept ≤ Word.modulus 11 := Nat.pow_le_pow_right (by decide) hkept
    have hmodulus : Word.modulus 11 = 2048 := rfl
    omega
  | move _ hselected => rcases hselected with rfl | rfl <;> exact hsingle _ rfl trivial
  | load => exact hsingle (loadOp _) rfl (by rw [loadOp]; split_ifs <;> trivial)
  | store => exact hsingle (storeOp _) rfl (by rw [storeOp]; split_ifs <;> trivial)
  | stackAddress =>
    refine hsingle .addi rfl fun n hn => ?_
    obtain ⟨hpos, hle⟩ := htakes n hn
    exact ⟨by omega, Int.le_trans hle (by decide)⟩
  | globalAddress =>
    refine List.forall_mem_cons.mpr ⟨Op.luiHi.encodable rfl trivial, ?_⟩
    exact hsingle .addiLo rfl trivial
  | branch h =>
    intro j hj
    obtain ⟨selected, hjump, hcode⟩ := exists_jump_of_selectBranch h j hj
    exact selected.encodable hcode (by cases selected <;> trivial)
  | jump => exact hsingle .j rfl trivial
  | call => exact hsingle .call rfl trivial
  | ret => exact hsingle .ret rfl trivial

end Riscv

end Target

/-! ## Functions -/

namespace Arch

variable {a : Arch} {i : Instruction}

theorem encodable_generic {op : GenericOp} (h : i.opcode = .generic op) : a.Encodable i := by
  rw [Encodable, h]
  trivial

theorem encodable_of_unselected (h : i.Unselected a) : a.Encodable i := by
  cases hcode : i.opcode with
  | generic op => exact encodable_generic hcode
  | native n =>
    obtain ⟨rfl, hadrp⟩ := h (congrArg Opcode.generic? hcode)
    exact AArch64.Op.adrp.encodable hadrp trivial

/-- **Selection makes encodable code** of what is ready and has no mask that is too wide. -/
theorem encodable_select {site : Site} {op : GenericOp} {r : Replacement}
    (hop : site.instruction.opcode = .generic op) (hi : site.instruction.Ready a)
    (hallocated : site.instruction.Allocated a.target) (hwide : a.wideMask? site.instruction = none)
    (h : a.target.select site op = .ok r) : ∀ j ∈ r.first :: r.rest, a.Encodable j := by
  cases a with
  | aarch64 =>
    obtain ⟨form, hform, rfl⟩ := AArch64.select_eq_ok h
    have hall := hform.encodable hop hi hallocated hwide
    rw [List.forall_mem_cons] at hall ⊢
    exact ⟨AArch64.encodable_widenRegisters hall.1, hall.2⟩
  | riscv32 => exact (Riscv.select_eq_ok h).encodable hop hi

end Arch

namespace Machine.Function

variable {a : Arch} {f g : Function}

theorem encodable_of_becomes {i : Instruction} {new : List Instruction} (hi : i.Ready a)
    (hallocated : i.Allocated a.target) (hwide : a.wideMask? i = none)
    (h : Becomes a.target i new) : ∀ j ∈ new, a.Encodable j := by
  obtain ⟨f, b, k, ⟨-, rfl⟩ | ⟨op, r, hop, hselect, rfl⟩⟩ := h
  · rw [List.forall_mem_singleton]
    exact Arch.encodable_of_unselected hi.unselected
  · exact Arch.encodable_select (Instruction.generic?_eq_some hop) hi hallocated hwide hselect

theorem ready_adjustStack {op : GenericOp} (hop : op = .add ∨ op = .sub) {size : Nat}
    (hsize : size ≤ maxFrameSize) : (adjustStack a.target op size).Ready a ∧
      (adjustStack a.target op size).Allocated a.target := by
  have hmax : maxFrameSize = 2047 := rfl
  refine ⟨⟨Instruction.unselected_of_generic rfl,
    Instruction.sized_of_not_isSpecial op rfl ?_ ?_, ?_⟩, ?_, ?_⟩
  · rcases hop with rfl | rfl <;> rfl
  · rcases hop with rfl | rfl <;> rintro ⟨⟩
  · rintro op' ⟨⟩ n ⟨⟩
    rcases hop with rfl | rfl <;> cases a <;> simp only [Arch.Takes] <;> omega
  · rcases hop with rfl | rfl <;> exact List.mem_singleton_self 3
  · simp [adjustStack, Operand.isFinal, Operand.physicalReg, Operand.immediate, Operand.isPhysical,
      Operand.isImmediate]

theorem ready_accessSaved {op : GenericOp} (hop : op = .load ∨ op = .store) {frame : Frame}
    {reg : RegId} {n : Nat} {i : Instruction}
    (h : accessSaved a.target frame op (savedAt a.target reg n).1 = .ok i) :
    i.Ready a ∧ i.Allocated a.target := by
  rw [accessSaved_eq_ok h]
  refine ⟨ready_of_unlimited rfl ?_ ?_ ?_, ?_, ?_⟩
  · rcases hop with rfl | rfl <;> rfl
  · rcases hop with rfl | rfl <;> rfl
  · rcases hop with rfl | rfl <;> cases a <;> intro _ _ <;> trivial
  · rcases hop with rfl | rfl <;> exact List.mem_singleton_self 3
  · simp [savedAt, Operand.isFinal, Operand.physicalReg, Operand.immediate, Operand.isPhysical,
      Operand.isImmediate]

end Machine.Function

end Retarget
