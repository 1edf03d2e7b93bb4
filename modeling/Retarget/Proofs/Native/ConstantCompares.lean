import Retarget.Proofs.Native.Platform

/-!
# Loads of narrow integers and compares with constants

On RV32 loads extend bytes and halfwords with their sign (`Riscv.loads_signed`), on AArch64 with
zeros (`AArch64.loads_unsigned`).  Compares with a constant answer about the 32-bit word in the
register on both (`Riscv.compares`, `AArch64.compares`).  On AArch64 a constant that does not fit
the instruction is moved into a new register before, and a branch behind the compare may leave the
answer in the flags.
-/

namespace Retarget

open Machine Target

/-! ## Words -/

namespace Target

theorem toNat_bit {width : Nat} (hpos : 0 < width) (b : Bool) :
    (bit width b).toNat = b.toNat := by
  cases b with
  | false => exact Nat.zero_mod _
  | true => exact Nat.mod_eq_of_lt (Nat.one_lt_two_pow hpos.ne')

theorem holds_setWidth {m n : Nat} (h : m = n) (r : Relation) (x y : BitVec m) :
    r.holds (x.setWidth n) (y.setWidth n) = r.holds x y := by
  subst h
  rw [BitVec.setWidth_eq, BitVec.setWidth_eq]

end Target

namespace Target.Riscv

/-! ## RV32 -/

theorem Op.isSelected_opcode (op : Op) : op.opcode.isSelected := by
  cases op <;> rfl

variable {bits : Nat}

/-- RV32. -/
def platform : Platform riscv32 where
  State := Processor
  run := Processor.run
  read s reg := (s.read reg).toNat
  bitsAt s base offset bits := s.memory.loadBits (s.read base + .ofInt 32 offset) bits
  flags? _ _ := none
  IsGeneral reg := reg ≠ zero
  IsBase _ := True

theorem isLegal_integerLoad {f : Function} {b k : Nat} {v : RegId} {place : Operand}
    (hbits : bits ≤ 32) (hplace : place.isPlace)
    (hi : f.instruction? b k = some (integerLoad bits v place)) : isLegal f b k := by
  have hsmall : ¬(32 < bits) := Nat.not_lt.mpr hbits
  have hother : (place.isRegLike || place.isImmediate) = false := by
    obtain ⟨kind, ty, regClass⟩ := place
    cases kind <;> first | rfl | cases hplace
  have hwide : isTooWide (integerLoad bits v place) = false := by
    show ([Operand.virtualReg v (.integer bits), place].any _) = false
    simp only [List.any_cons, List.any_nil, hother, Bool.false_and, Bool.or_false]
    exact decide_eq_false hsmall
  have hop : (integerLoad bits v place).generic? = some .load := rfl
  have hfirst : (integerLoad bits v place).hasImmediateFirstSource = false := rfl
  have hconversion : (integerLoad bits v place).isConstantConversion = false := rfl
  rw [isLegal, hi]
  dsimp only
  rw [hop]
  dsimp only
  rw [hwide, hfirst, hconversion]
  rfl

theorem Processor.run_placedLoad (hbits : bits = 8 ∨ bits = 16) (v reg base : RegId) (offset : Int)
    (s : Processor) :
    run [(Function.placedLoad riscv32 bits v reg base offset).setOpcode (loadOp bits).opcode] s =
      some (s.write reg
        ((s.memory.loadBits (s.read base + .ofInt 32 offset) bits).signExtend 32)) := by
  have hkinds : ((Function.placedLoad riscv32 bits v reg base offset).setOpcode
      (loadOp bits).opcode).operands.map (·.kind) =
        [.physicalReg reg, .physicalReg base, .immediate offset] := by
    show [Operand.Kind.physicalReg (Riscv.registers.withWidth reg bits), .physicalReg base,
      .immediate offset] = _
    rw [withWidth_eq]
  have hword : s.word? (loadOp bits) (s.read base) offset =
      some ((s.memory.loadBits (s.read base + .ofInt 32 offset) bits).signExtend 32) := by
    rcases hbits with rfl | rfl <;> rfl
  rw [run_cons, step_word rfl hkinds hword]
  rfl

theorem loads_signed (hbits : bits = 8 ∨ bits = 16) :
    platform.Loads bits fun word => (word.signExtend 32).toNat := by
  intro f b k v place hplace hi
  refine ⟨.of_isLegal hi (isLegal_integerLoad (by omega) hplace hi),
    fun assigned reg base offset hassigned hreg hresolve _ => ?_⟩
  let load := Function.placedLoad riscv32 bits v reg base offset
  let form := load.setOpcode (loadOp bits).opcode
  have hselects : Function.SelectsTo riscv32 [load] [form] :=
    .of_select (r := ⟨form, []⟩) rfl (fun _ _ _ => rfl) (Op.isSelected_opcode (loadOp bits))
  refine ⟨load, [form], Function.placeInstruction_integerLoad bits hassigned hresolve, hselects,
    fun s => ⟨_, Processor.run_placedLoad hbits v reg base offset s, ?_⟩⟩
  exact congrArg BitVec.toNat (Processor.read_write hreg)

variable {home : RegId → RegId} {assigned : List (RegId × RegId)}

/-- What an elementary instruction becomes is selected as code that does the same, up to new
registers. -/
theorem Becomes.exists_native {g : Function} {next : Nat} {i : Instruction}
    {code : List Instruction} (h : Becomes next [i] g.nextId code) (hi : Elementary i)
    (hassigned : Assigns assigned home next g.nextId i) :
    ∃ placed native, code.mapM (g.placeInstruction riscv32 assigned) = .ok placed ∧
      Function.SelectsTo riscv32 placed native ∧
      ∀ σ, ∃ σ', run native σ = some σ' ∧ Agree home next g.nextId σ' (perform home i σ) := by
  have his : ∀ j ∈ [i], Elementary j := List.forall_mem_singleton.mpr hi
  have hcode := h.elementary his
  have hwithin := h.within (List.forall_mem_singleton.mpr hassigned.named) hassigned.new
  obtain ⟨native, hselects, -, hrun⟩ := exists_selectsTo home hcode
  refine ⟨code.map (withHomes home), native,
    mapM_eq_ok_map fun j hj => placeInstruction_eq g (hcode j hj).1 (hwithin j hj), hselects,
    fun σ => ⟨_, hrun σ, ?_⟩⟩
  exact h.agree his hassigned.ne_zero hassigned.distinct
    (List.forall_mem_singleton.mpr fun o ho => hassigned.apart o (List.mem_of_mem_tail ho)) σ

theorem assigns_of_houses {next next' : Nat} {r : Relation} {d v : RegId} {constant : Int}
    (h : platform.Houses assigned home [d, v] next next') :
    Assigns assigned home next next' (constantCompare bits r d v constant) where
  named o ho id hid := by
    have hoperands : o ∈ [Operand.virtualReg d (.integer 1), .virtualReg v (.integer bits),
        .immediate constant (.integer bits)] := ho
    simp only [List.mem_cons, List.not_mem_nil, or_false] at hoperands
    rcases hoperands with rfl | rfl | rfl <;> cases hid
    · exact h.assigned d (.inl (by simp))
    · exact h.assigned v (.inl (by simp))
  new id hle hlt := h.assigned id (.inr ⟨hle, hlt⟩)
  ne_zero id hle hlt := h.general id (.inr ⟨hle, hlt⟩)
  distinct id id' hle hlt hlt' heq := h.distinct id id' hle hlt hlt' (congrArg _ heq)
  apart o ho id hle hlt := by
    have hoperands : o ∈ [Operand.virtualReg d (.integer 1), .virtualReg v (.integer bits),
        .immediate constant (.integer bits)] := ho
    simp only [List.mem_cons, List.not_mem_nil, or_false] at hoperands
    rcases hoperands with rfl | rfl | rfl
    · exact fun heq => h.apart d (by simp) id hle hlt (congrArg _ heq)
    · exact fun heq => h.apart v (by simp) id hle hlt (congrArg _ heq)
    · exact (h.general id (.inr ⟨hle, hlt⟩)).symm

theorem compares (hbits : bits ≤ 32) (r : Relation) {constant : Int}
    (hconstant : -2 ^ 31 ≤ constant ∧ constant < 2 ^ 32) :
    platform.Compares bits r constant fun n => r.holds (.ofNat 32 n) (.ofInt 32 constant) := by
  intro f b k d v hi hroom
  have hdest : IsDestination (.virtualReg d (.integer 1)) := ⟨rfl, Nat.le_add_left 1 31⟩
  have hlhs : IsDestination (.virtualReg v (.integer bits)) := ⟨rfl, hbits⟩
  have hrhs : IsValue (.immediate constant (.integer bits)) := by
    refine ⟨.inr rfl, hbits, ?_⟩
    rintro _ ⟨⟩
    exact hconstant
  have hword := word?_cmp (i := constantCompare bits r d v constant) rfl rfl
  have hcompare : Elementary (constantCompare bits r d v constant) :=
    .compute hword rfl hdest (isValue_register hlhs) hrhs
  have hweight : weight [constantCompare bits r d v constant] ≤ 5 := by
    have hgrowth := growth_compare_le (i := constantCompare bits r d v constant) rfl rfl rfl hdest
    rw [weight_cons, weight_nil]
    omega
  obtain ⟨g, code, hbecomes, hlegalizes⟩ := exists_becomes (Nat.le_refl _)
    (Function.hasAt_singleton hi) (List.forall_mem_singleton.mpr hcompare)
    (by rw [List.length_singleton]; omega)
  have hnext := hbecomes.next_le_weight
  rw [List.length_singleton] at hnext
  refine ⟨g, code, hlegalizes, by omega, fun assigned home hhouses => ?_⟩
  obtain ⟨placed, native, hplaced, hselects, hrun⟩ :=
    hbecomes.exists_native hcompare (assigns_of_houses hhouses)
  refine ⟨placed, hplaced, hselects.into fun F b k (s : Processor) => ?_⟩
  obtain ⟨σ, hσ, hagree⟩ := hrun s.registers
  refine ⟨_, Processor.run_of_registers hσ, .inl ?_⟩
  have hread : σ.read (home d) = bit 32 (r.holds (s.read (home v)) (.ofInt 32 constant)) := by
    have hapart : ∀ id, f.nextId ≤ id → id < g.nextId → home d ≠ home id := fun id hle hlt heq =>
      hhouses.apart d (by simp) id hle hlt (congrArg _ heq)
    rw [hagree _ hapart, perform_compute hword rfl]
    exact Contents.read_write (hhouses.general d (.inl (by simp)))
  show (σ.read (home d)).toNat = (r.holds (.ofNat 32 (s.read (home v)).toNat) _).toNat
  rw [hread, BitVec.ofNat_toNat, BitVec.setWidth_eq]
  exact toNat_bit (by decide) _

end Target.Riscv

namespace Target.AArch64

/-! ## AArch64 -/

/-- AArch64; code is touched up before it runs. -/
def platform : Platform aarch64 where
  State := Processor
  run code := Processor.run (code.map (narrowSource registers))
  read s reg := (s.registers (registers.root reg)).toNat
  bitsAt s base offset bits := s.memory.loadBits (s.address base offset) bits
  flags? s r := some (s.flags.holds r)
  IsGeneral := IsGeneralPurpose
  IsBase reg := widthOf reg = 64

variable {bits : Nat}

theorem Processor.registers_write {s : Processor} {reg r : RegId} {value : BitVec (widthOf r)}
    (h : AArch64.registers.root r = AArch64.registers.root reg) :
    (s.write r value).registers (AArch64.registers.root reg) = value.setWidth 64 := by
  rw [← h]
  exact Function.update_self ..

theorem Processor.run_loadForm (hbits : bits = 8 ∨ bits = 16) {v reg base : RegId} (offset : Int)
    (hreg : IsGeneralPurpose reg) (hbase : widthOf base = 64) (s : Processor) :
    ∃ s', platform.run [loadForm (Function.placedLoad aarch64 bits v reg base offset)
        ((Operand.virtualReg v (.integer bits)).setPhysical
          (AArch64.registers.withWidth reg bits))] s = some s' ∧
      (s'.registers (AArch64.registers.root reg)).toNat =
        (s.memory.loadBits (s.address base offset) bits).toNat := by
  let loaded := (Operand.virtualReg v (.integer bits)).setPhysical
    (AArch64.registers.withWidth reg bits)
  have hloaded : IsPlaced loaded (AArch64.registers.withWidth reg bits) :=
    .of_home hreg (.virtualReg v (.integer bits))
  have hb : (Operand.physicalReg base aarch64.pointerType).kind = .physicalReg base := rfl
  have ho : (Operand.immediate offset aarch64.offsetType).kind = .immediate offset := rfl
  have hstep := step_loadForm hb ho hbase s
    (show (Function.placedLoad aarch64 bits v reg base offset).operands = [loaded, _, _] from rfl)
    hloaded
  have hroot : AArch64.registers.root (AArch64.registers.withWidth reg bits) =
      AArch64.registers.root reg := Arch.root_withWidth .aarch64 reg bits
  have hunit : bits ≤ 32 ∧ 8 ∣ bits ∧ loadedBits bits = bits := by
    rcases hbits with rfl | rfl <;> decide
  have hwide : 32 ≤ widthOf (AArch64.registers.withWidth reg bits) := by
    rw [hreg.widthOf_withWidth, registerWidth]
    split_ifs <;> decide
  have hlt : ∀ {width}, 32 ≤ width → (s.memory.loadBits (s.address base offset) bits).toNat <
      2 ^ width := fun h => Nat.lt_of_lt_of_le (BitVec.isLt _)
    (Nat.pow_le_pow_right (by decide) (hunit.1.trans h))
  refine ⟨_, (run_singleton _ s).trans hstep, ?_⟩
  rw [registers_write hroot, show loaded.size = bits from rfl, hunit.2.2,
    setWidth_wordAt s (hunit.1.trans (by decide)) hunit.2.1, BitVec.toNat_setWidth,
    BitVec.toNat_setWidth, Nat.mod_eq_of_lt (hlt hwide), Nat.mod_eq_of_lt (hlt (by decide))]

theorem loads_unsigned (hbits : bits = 8 ∨ bits = 16) :
    platform.Loads bits fun word => word.toNat := by
  intro f b k v place hplace hi
  have hlegal : isLegal f b k := by
    rw [isLegal, hi]
    rfl
  refine ⟨.of_isLegal hi hlegal,
    fun assigned reg base offset hassigned hreg hresolve hbase => ?_⟩
  let load := Function.placedLoad aarch64 bits v reg base offset
  let loaded := (Operand.virtualReg v (.integer bits)).setPhysical (registers.withWidth reg bits)
  have hloaded : IsPlaced loaded (registers.withWidth reg bits) :=
    .of_home hreg (.virtualReg v (.integer bits))
  have hselects : Function.SelectsTo aarch64 [load] [loadForm load loaded] :=
    .of_select (r := ⟨loadForm load loaded, []⟩) rfl (fun _ _ _ => select_load rfl hloaded)
      (Op.isSelected_opcode _)
  exact ⟨load, [loadForm load loaded], Function.placeInstruction_integerLoad bits hassigned
    hresolve, hselects, Processor.run_loadForm hbits offset hreg hbase⟩

/-! ### Compares -/

section Compare

variable {i : Instruction} {r : Relation} {dest lhs rhs : Operand} {rd rl : RegId}

def compareForm (i : Instruction) (rhs : Operand) : Instruction :=
  let op := if rhs.isImmediate then Op.cmpI else Op.cmpR
  widenRegisters ((i.setOpcode op.opcode).eraseOperand 0)

def setForm (r : Relation) (dest : Operand) : Instruction :=
  ((Op.setOn r).on [dest]).withRelation r

theorem opcode_compareForm (i : Instruction) (rhs : Operand) : (compareForm i rhs).opcode =
    (if rhs.isImmediate then Op.cmpI else Op.cmpR).opcode := rfl

theorem narrowSource_compareForm (i : Instruction) (rhs : Operand) :
    narrowSource registers (compareForm i rhs) = compareForm i rhs := by
  apply narrowSource_eq_self <;> rw [opcode_compareForm] <;> split <;> decide

theorem narrowSource_setForm (r : Relation) (dest : Operand) :
    narrowSource registers (setForm r dest) = setForm r dest := by
  apply narrowSource_eq_self <;> cases r <;> exact Opcode.native.inj.mt (by decide)

theorem select_compare {site : Site} (hrelation : site.instruction.relation = some r)
    (hoperands : site.instruction.operands = [dest, lhs, rhs]) :
    ∃ fused : Bool, aarch64.select site .cmp =
        .ok ⟨compareForm site.instruction rhs, if fused then [] else [setForm r dest]⟩ ∧
      (fused → ∃ next, site.next? = some next ∧ next.isGeneric .branch ∧
        (next.operand? 0).bind (·.reg?) = dest.reg?) := by
  have hdest : site.operand 0 = .ok dest := Site.operand_eq_ok (by rw [hoperands]; rfl)
  have hrhs : site.operand 2 = .ok rhs := Site.operand_eq_ok (by rw [hoperands]; rfl)
  show ∃ fused : Bool, (selectCompare registers site false >>= _) = _ ∧ _
  rw [selectCompare, hrelation]
  simp only [orFail, ok_bind, hdest, hrhs]
  generalize hfused : ((site.next?.any fun next =>
      next.isGeneric .branch && (next.operand? 0).bind (·.reg?) == dest.reg?) &&
    dest.reg?.any fun reg => !isReadElsewhere registers site.function site.block site.stop reg) =
      fused
  refine ⟨fused, ?_, ?_⟩
  · rw [compareForm]
    cases rhs.isImmediate <;> rfl
  · rintro rfl
    rw [Bool.and_eq_true, Option.any_eq_true] at hfused
    obtain ⟨⟨next, hnext, hbranch⟩, -⟩ := hfused
    rw [Bool.and_eq_true, beq_iff_eq] at hbranch
    exact ⟨next, hnext, hbranch⟩

theorem selectsInto_compare (hop : i.opcode = .generic .cmp) (hrelation : i.relation = some r)
    (hoperands : i.operands = [dest, lhs, rhs]) (hdest : dest.kind = .physicalReg rd) :
    Function.SelectsInto aarch64 [i] fun f b k code =>
      code = [compareForm i rhs, setForm r dest] ∨
        code = [compareForm i rhs] ∧ f.BranchesAt b (k + 1) rd := by
  refine .of_select (j := compareForm i rhs) hop (Op.isSelected_opcode _) fun f b k => ?_
  let site : Site := { function := f, block := b, index := k, instruction := i }
  obtain ⟨fused, hselect, hbranch⟩ :=
    select_compare (show site.instruction.relation = some r from hrelation) hoperands
  refine ⟨_, ?_, hselect⟩
  cases fused with
  | false => exact .inl rfl
  | true =>
    have hnext := hbranch rfl
    rw [show dest.reg? = some rd by rw [Operand.reg?, hdest]] at hnext
    exact .inr ⟨rfl, hnext⟩

/-- The low 32 bits that the second source of a compare stands for. -/
def IsWord (s : Processor) (o : Operand) (y : BitVec 32) : Prop :=
  (∃ v, o.kind = .immediate v ∧ Word.isUint v 12 ∧ y = .ofInt 32 v) ∨
    ∃ rt, o.kind = .physicalReg rt ∧ widthOf rt = 32 ∧ y = (s.read rt).setWidth 32

theorem Processor.holds_compare {s : Processor} (hrl : widthOf rl = 32) (y : BitVec (widthOf rl)) :
    (ConditionFlags.compare (s.read rl) y).holds r =
      r.holds ((s.registers (AArch64.registers.root rl)).setWidth 32) (y.setWidth 32) := by
  rw [ConditionFlags.holds_compare, ← holds_setWidth hrl, Processor.setWidth_read hrl.ge]

/-- A compare leaves flags from which its relation can be told. -/
theorem Processor.step_compareForm (hoperands : i.operands = [dest, lhs, rhs])
    (hlhs : lhs.kind = .physicalReg rl) (hrl : widthOf rl = 32) {s : Processor} {y : BitVec 32}
    (hrhs : IsWord s rhs y) : ∃ s', step (narrowSource AArch64.registers (compareForm i rhs)) s =
        some s' ∧ ∀ r : Relation, s'.flags.holds r =
          r.holds ((s.registers (AArch64.registers.root rl)).setWidth 32) y := by
  have hkinds : (compareForm i rhs).operands.map (·.kind) = [.physicalReg rl, rhs.kind] := by
    rw [compareForm, Function.map_kind_widenRegisters]
    show (i.operands.eraseIdx 0).map (·.kind) = _
    rw [hoperands, ← hlhs]
    rfl
  rcases hrhs with ⟨v, hkind, hv, rfl⟩ | ⟨rt, hkind, hrt, rfl⟩
  · rw [hkind] at hkinds
    have hop : (compareForm i rhs).opcode = Op.cmpI.opcode := by
      rw [opcode_compareForm, Operand.isImmediate, hkind]
      rfl
    rw [narrowSource_compareForm, step_compare_constant hop hkinds hv]
    refine ⟨_, rfl, fun r => (holds_compare hrl _).trans ?_⟩
    rw [Word.setWidth_ofInt hrl.ge]
  · rw [hkind] at hkinds
    have hop : (compareForm i rhs).opcode = Op.cmpR.opcode := by
      rw [opcode_compareForm, Operand.isImmediate, hkind]
      rfl
    rw [narrowSource_compareForm, step_compare_register hop hkinds (hrt.trans hrl.symm)]
    refine ⟨_, rfl, fun r => (holds_compare hrl _).trans ?_⟩
    rw [BitVec.setWidth_setWidth_of_le _ hrl.ge]

theorem Processor.run_compareForm (hoperands : i.operands = [dest, lhs, rhs])
    (hdest : dest.kind = .physicalReg rd) (hrd : widthOf rd = 32)
    (hlhs : lhs.kind = .physicalReg rl) (hrl : widthOf rl = 32) {s : Processor} {y : BitVec 32}
    (hrhs : IsWord s rhs y) {isForBranch : Prop} {code : List Instruction}
    (hcode : code = [compareForm i rhs, setForm r dest] ∨
      code = [compareForm i rhs] ∧ isForBranch) :
    ∃ s', platform.run code s = some s' ∧ platform.Answers s' rd r isForBranch
      (r.holds ((s.registers (AArch64.registers.root rl)).setWidth 32) y) := by
  obtain ⟨s₁, hstep, hflags⟩ := step_compareForm hoperands hlhs hrl hrhs
  rcases hcode with rfl | ⟨rfl, hbranch⟩
  · have hkinds : (setForm r dest).operands.map (·.kind) = [.physicalReg rd] :=
      congrArg (· :: []) hdest
    have hset := step_set (i := setForm r dest) rfl hkinds s₁
    refine ⟨s₁.write rd (bit _ (s₁.flags.holds r)), ?_, .inl ?_⟩
    · show run [_, _] s = _
      rw [run_cons, hstep, Option.bind_some, run_singleton, narrowSource_setForm, hset]
      rfl
    · show ((s₁.write rd (bit _ (s₁.flags.holds r))).registers _).toNat = _
      rw [registers_write rfl, BitVec.toNat_setWidth, toNat_bit (by omega), hflags]
      exact Nat.mod_eq_of_lt ((Bool.toNat_lt _).trans (by decide))
  · exact ⟨s₁, (run_singleton _ s).trans hstep, .inr ⟨hbranch, congrArg some (hflags r)⟩⟩

end Compare

/-! ### Constants -/

section Constant

variable {site : Site} {i : Instruction} {dest source : Operand} {reg : RegId} {v : Int}

theorem selectConstant_of_small (hoperands : site.instruction.operands = [dest, source])
    (hv : source.immediate? = some v) (hsize : dest.size ≤ 32) (hlow : -65536 ≤ v)
    (hhigh : v ≤ 65535) :
    selectConstant site = .ok ⟨(site.instruction.setOpcode Op.movI.opcode).replaceOperand 1
      (.immediate v dest.ty), []⟩ := by
  have hdest : site.operand 0 = .ok dest := Site.operand_eq_ok (by rw [hoperands]; rfl)
  have hsource : site.operand 1 = .ok source := Site.operand_eq_ok (by rw [hoperands]; rfl)
  have hself : Word.signed 32 (Word.low 32 v) = v := by
    rw [Word.signed, Word.cast_low]
    refine (Int.emod_bmod v (2 ^ 32)).trans (Int.bmod_eq_of_le ?_ ?_) <;> omega
  rw [selectConstant, hdest, hsource]
  simp only [ok_bind, hv, orFail, Nat.max_eq_right hsize, if_true, hself]
  rw [if_pos ⟨hlow, hhigh⟩]
  rfl

/-- The form of a load of a small constant. -/
def moveForm (i : Instruction) (dest : Operand) (v : Int) : Instruction :=
  widenRegisters ((i.setOpcode Op.movI.opcode).replaceOperand 1 (.immediate v dest.ty))

theorem select_constant (hoperands : site.instruction.operands = [dest, source])
    (hv : source.immediate? = some v) (hsize : dest.size ≤ 32) (hlow : -65536 ≤ v)
    (hhigh : v ≤ 65535) :
    aarch64.select site .loadImm = .ok ⟨moveForm site.instruction dest v, []⟩ := by
  show (selectConstant site >>= _) = _
  rw [selectConstant_of_small hoperands hv hsize hlow hhigh]
  rfl

theorem Processor.step_moveForm (hoperands : i.operands = [dest, source])
    (hdest : dest.kind = .physicalReg reg) (v : Int) (s : Processor) :
    step (narrowSource AArch64.registers (moveForm i dest v)) s =
      some (s.write reg (.ofInt _ v)) := by
  have hop : (moveForm i dest v).opcode = Op.movI.opcode := rfl
  have hkinds : (moveForm i dest v).operands.map (·.kind) = [.physicalReg reg, .immediate v] := by
    rw [moveForm, Function.map_kind_widenRegisters]
    show (i.operands.set 1 _).map (·.kind) = _
    rw [hoperands, ← hdest]
    rfl
  have hself : narrowSource AArch64.registers (moveForm i dest v) = moveForm i dest v := by
    apply narrowSource_eq_self <;> rw [hop] <;> decide
  rw [hself, step_of_registers (AArch64.step_move hop hkinds s.registers)]
  rfl

end Constant

/-! ### Code of compares -/

section Code

variable {assigned : List (RegId × RegId)} {f : Function} {i : Instruction} {r : Relation}
  {d v rd rv : RegId} {second second' : Operand}

theorem widthOf_withWidth_of_le {reg : RegId} (h : IsGeneralPurpose reg) (hbits : bits ≤ 32) :
    widthOf (registers.withWidth reg bits) = 32 := by
  rw [h.widthOf_withWidth, registerWidth, if_pos hbits]

/-- The code of a compare answers for the word in the register and the one that its second source
stands for. -/
theorem exists_compareCode (hbits : bits ≤ 32) (hop : i.opcode = .generic .cmp)
    (hrelation : i.relation = some r) (hoperands : i.operands =
      [.virtualReg d (.integer 1), .virtualReg v (.integer bits), second])
    (hd : assigned.lookup d = some rd) (hrd : IsGeneralPurpose rd)
    (hv : assigned.lookup v = some rv) (hrv : IsGeneralPurpose rv)
    (hsecond : Function.placeOperand aarch64 f.name assigned second = .ok second')
    (hnone : second'.isPlace = false) :
    ∃ placed, f.placeInstruction aarch64 assigned i = .ok placed ∧
      Function.SelectsInto aarch64 [placed] fun F b k code =>
        ∀ (s : Processor) (y : BitVec 32), IsWord s second' y →
          ∃ s', platform.run code s = some s' ∧ platform.Answers s' rd r
            (F.BranchesAt b (k + 1) (registers.withWidth rd 1))
            (r.holds (.ofNat 32 (platform.read s rv)) y) := by
  let dest := (Operand.virtualReg d (.integer 1)).setPhysical (registers.withWidth rd 1)
  let lhs := (Operand.virtualReg v (.integer bits)).setPhysical (registers.withWidth rv bits)
  have hplaced : i.operands.mapM (Function.placeOperand aarch64 f.name assigned) =
      .ok [dest, lhs, second'] := by
    rw [hoperands, List.mapM_cons, Function.placeOperand_virtualReg f.name hd, ok_bind,
      List.mapM_cons, Function.placeOperand_virtualReg f.name hv, ok_bind, List.mapM_cons, hsecond]
    rfl
  have hnone' : ∀ o ∈ [dest, lhs, second'], o.isPlace = false := by
    rw [List.forall_mem_cons, List.forall_mem_cons, List.forall_mem_singleton]
    exact ⟨rfl, rfl, hnone⟩
  refine ⟨_, Function.placeInstruction_of_none hplaced hnone', fun F b k hcode => ?_⟩
  obtain ⟨code, g, hforms, hreplaces, hwalk⟩ := selectsInto_compare
    (i := i.withOperands [dest, lhs, second']) hop hrelation rfl rfl F b k hcode
  refine ⟨code, g, fun s y hy => ?_, hreplaces, hwalk⟩
  have hrun := Processor.run_compareForm (i := i.withOperands [dest, lhs, second']) rfl rfl
    (widthOf_withWidth_of_le hrd (by decide)) rfl (widthOf_withWidth_of_le hrv hbits) hy hforms
  have hroots : registers.root (registers.withWidth rd 1) = registers.root rd ∧
      registers.root (registers.withWidth rv bits) = registers.root rv :=
    ⟨Arch.root_withWidth .aarch64 rd 1, Arch.root_withWidth .aarch64 rv bits⟩
  obtain ⟨s', hs', hanswer⟩ := hrun
  rw [hroots.2, ← BitVec.ofNat_toNat] at hanswer
  refine ⟨s', hs', hanswer.imp_left fun hread => ?_⟩
  show (s'.registers (registers.root rd)).toNat = _
  rw [← hroots.1]
  exact hread

end Code

/-! ### Legal compares -/

section Legal

variable {f : Function} {b k : Nat} {r : Relation} {d v : RegId} {constant : Int}

theorem isLegal_constantCompare (hi : f.instruction? b k =
    some (constantCompare bits r d v constant)) : isLegal f b k = Word.isUint constant 12 := by
  rw [isLegal, hi]
  rfl

/-- The compare of an integer in a register with one in another. -/
def registerCompare (bits : Nat) (r : Relation) (d v u : RegId) (constant : Int) : Instruction :=
  (constantCompare bits r d v constant).replaceOperand 2 (.virtualReg u (.integer bits))

theorem legalizesTo_constantCompare (hi : f.instruction? b k =
      some (constantCompare bits r d v constant)) (hlarge : Word.isUint constant 12 = false)
    (hroom : f.nextId + 4 < 2 ^ 32) :
    ∃ g, g.nextId = f.nextId + 1 ∧
      f.LegalizesTo aarch64 b k [constantCompare bits r d v constant]
        [loadImmediate (.virtualReg f.nextId (.integer bits)) (.immediate constant (.integer bits)),
          registerCompare bits r d v f.nextId constant] g := by
  let new := [loadImmediate (.virtualReg f.nextId (.integer bits))
    (.immediate constant (.integer bits)), registerCompare bits r d v f.nextId constant]
  let g := ({ f with nextId := f.nextId + 1 } : Function).replaceAt b k new
  have hreplaces : f.Replaces b k [constantCompare bits r d v constant] new g :=
    .of_fresh (.replaceAt (f := { f with nextId := f.nextId + 1 }) hi new) rfl rfl rfl rfl rfl
  have hexpand : aarch64.expand f b k = .ok g := by
    have hfresh := Lowering.fresh_eq_ok_iff.mpr ⟨show f.nextId + 1 < 2 ^ 32 by omega, rfl⟩
    show expand f b k = _
    rw [expand, hi]
    show materialize f b k 2 = _
    rw [materialize, Function.instructionAt_eq hi, ok_bind]
    show (f.fresh >>= _) = _
    rw [hfresh]
    rfl
  have hcode : g.HasAt b k new := hreplaces.hasAt
  refine ⟨g, rfl, .of_expand hi ((isLegal_constantCompare hi).trans hlarge) rfl hexpand hreplaces
    fun n hn => ?_⟩
  have hn' : n = 0 ∨ n = 1 := by
    have hlt : n < 2 := hn
    omega
  show isLegal g b (k + n) = true
  rcases hn' with rfl | rfl
  · rw [isLegal, Nat.add_zero, hcode.instruction?]
    rfl
  · rw [isLegal, hcode.tail.instruction?]
    rfl

variable {home : RegId → RegId} {assigned : List (RegId × RegId)} {g : Function}
  {next next' : Nat}

/-- The code of a compare over the assigned registers answers for the word in the 32-bit view. -/
def Answering (g : Function) (assigned : List (RegId × RegId)) (legal : List Instruction)
    (rd rv : RegId) (r : Relation) (constant : Int) : Prop :=
  ∃ placed, legal.mapM (g.placeInstruction aarch64 assigned) = .ok placed ∧
    Function.SelectsInto aarch64 placed fun F b k code => ∀ s : Processor,
      ∃ s', platform.run code s = some s' ∧ platform.Answers s' rd r
        (F.BranchesAt b (k + placed.length) (registers.withWidth rd 1))
        (r.holds (.ofNat 32 (platform.read s rv)) (.ofInt 32 constant))

variable (hbits : bits ≤ 32) (h : platform.Houses assigned home [d, v] next next')

include hbits h

theorem answering_small (hsmall : Word.isUint constant 12) :
    Answering g assigned [constantCompare bits r d v constant] (home d) (home v) r constant := by
  obtain ⟨placed, hplaced, hselects⟩ := exists_compareCode (f := g) (r := r)
    (i := constantCompare bits r d v constant) hbits rfl rfl rfl
    (h.assigned d (.inl (by simp))) (h.general d (.inl (by simp)))
    (h.assigned v (.inl (by simp))) (h.general v (.inl (by simp))) rfl rfl
  refine ⟨[placed], by rw [List.mapM_cons, hplaced]; rfl, hselects.mono
    fun F b k code hanswers s => hanswers s _ (.inl ⟨constant, rfl, hsmall, rfl⟩)⟩

theorem answering_large {u : RegId} (hu : next ≤ u ∧ u < next') (hlow : -65536 ≤ constant)
    (hhigh : constant ≤ 65535) : Answering g assigned
      [loadImmediate (.virtualReg u (.integer bits)) (.immediate constant (.integer bits)),
        registerCompare bits r d v u constant] (home d) (home v) r constant := by
  have hassigned := h.assigned u (.inr hu)
  have hgeneral : IsGeneralPurpose (home u) := h.general u (.inr hu)
  obtain ⟨placed, hplaced, hselects⟩ := exists_compareCode (f := g) (r := r)
    (i := registerCompare bits r d v u constant) hbits rfl rfl rfl
    (h.assigned d (.inl (by simp))) (h.general d (.inl (by simp)))
    (h.assigned v (.inl (by simp))) (h.general v (.inl (by simp)))
    (Function.placeOperand_virtualReg g.name hassigned _) rfl
  let ru := registers.withWidth (home u) bits
  let dest := (Operand.virtualReg u (.integer bits)).setPhysical ru
  let load := (loadImmediate (.virtualReg u (.integer bits))
    (.immediate constant (.integer bits))).withOperands [dest, .immediate constant (.integer bits)]
  have hload : g.placeInstruction aarch64 assigned (loadImmediate (.virtualReg u (.integer bits))
      (.immediate constant (.integer bits))) = .ok load := by
    refine Function.placeInstruction_of_none ?_
      (List.forall_mem_cons.mpr ⟨rfl, List.forall_mem_singleton.mpr rfl⟩)
    show [_, _].mapM _ = _
    rw [List.mapM_cons, Function.placeOperand_virtualReg g.name hassigned]
    rfl
  refine ⟨[load, placed], by rw [List.mapM_cons, hload, ok_bind, List.mapM_cons, hplaced]; rfl,
    hselects.cons (j := moveForm load dest constant) rfl
      (fun _ _ _ => select_constant rfl rfl hbits hlow hhigh) (Op.isSelected_opcode .movI)
      fun F b k code hi hanswers s => ?_⟩
  have hword : IsWord (s.write ru (.ofInt _ constant)) dest (.ofInt 32 constant) := by
    have hru : widthOf ru = 32 := widthOf_withWidth_of_le hgeneral hbits
    refine .inr ⟨ru, rfl, hru, ?_⟩
    rw [Processor.read_write, Word.setWidth_ofInt hru.ge]
  have hkept : platform.read (s.write ru (.ofInt _ constant)) (home v) =
      platform.read s (home v) := by
    refine congrArg BitVec.toNat (Processor.registers_write_of_ne ?_)
    rw [show registers.root ru = registers.root (home u) from
      Arch.root_withWidth .aarch64 (home u) bits]
    exact h.apart v (by simp) u hu.1 hu.2
  obtain ⟨s', hs', hanswer⟩ := hanswers _ _ hword
  rw [hkept] at hanswer
  refine ⟨s', ?_, hanswer.imp_right fun hbranch => ⟨hbranch.1.of_replaceAt hi, hbranch.2⟩⟩
  show Processor.run (narrowSource registers _ :: _) s = some s'
  rw [Processor.run_cons, Processor.step_moveForm rfl rfl, Option.bind_some]
  exact hs'

omit hbits h

theorem compares (hbits : bits ≤ 32) (r : Relation) (hlow : -65536 ≤ constant)
    (hhigh : constant ≤ 65535) : platform.Compares bits r constant
      fun n => r.holds (.ofNat 32 n) (.ofInt 32 constant) := by
  intro f b k d v hi hroom
  cases hsmall : Word.isUint constant 12 with
  | true =>
    exact ⟨f, _, .of_isLegal hi ((isLegal_constantCompare hi).trans hsmall), Nat.le_add_right _ _,
      fun assigned home h => answering_small hbits h hsmall⟩
  | false =>
    obtain ⟨g, hnext, hlegalizes⟩ := legalizesTo_constantCompare hi hsmall hroom
    have hlt : f.nextId < g.nextId := hnext ▸ Nat.lt_succ_self _
    exact ⟨g, _, hlegalizes, by omega, fun assigned home h =>
      answering_large hbits h ⟨Nat.le_refl _, hlt⟩ hlow hhigh⟩

end Legal

end Target.AArch64

end Retarget
