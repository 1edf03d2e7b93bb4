import Mathlib.Tactic.LinearCombination
import Mathlib.Tactic.Linarith
import Retarget.Proofs.Legality.Meaning
import Retarget.Proofs.Selection.Walk
import Retarget.Proofs.Stack.FrameCode

/-!
# Constants in AArch64 registers

A constant is moved into a register by one move, and where that cannot hold it, by replacements of
16-bit fields of the register (`AArch64.run`).  Whatever the register held, it then holds the
constant as far as its type goes (`AArch64.materializes_selectAt`).
-/

namespace Retarget

open Machine

/-! ## Fields of words -/

namespace Word

variable {n : Nat}

/-- The word with the 16 bits from `shift` on replaced. -/
def withField (x : BitVec n) (shift : Nat) (field : BitVec 16) : BitVec n :=
  x &&& ~~~((0xffff#16).setWidth n <<< shift) ||| field.setWidth n <<< shift

theorem toNat_withField {x : BitVec n} {shift : Nat} (hx : x.toNat < 2 ^ shift)
    (hshift : shift + 16 ≤ n) (field : BitVec 16) :
    (withField x shift field).toNat = x.toNat + 2 ^ shift * field.toNat := by
  have hkeep : x &&& ~~~((0xffff#16).setWidth n <<< shift) = x := by
    refine BitVec.eq_of_getLsbD_eq fun i hi => ?_
    rcases Nat.lt_or_ge i shift with hlt | hge
    · simp [hlt, hi]
    · have hnone : x.getLsbD i = false :=
        Nat.testBit_lt_two_pow (Nat.lt_of_lt_of_le hx (Nat.pow_le_pow_right (by decide) hge))
      simp [hnone]
  have hfield : field.toNat * 2 ^ shift < 2 ^ n := calc
    field.toNat * 2 ^ shift < 2 ^ 16 * 2 ^ shift :=
      Nat.mul_lt_mul_of_pos_right field.isLt (Nat.two_pow_pos shift)
    _ = 2 ^ (shift + 16) := by rw [Nat.pow_add, Nat.mul_comm]
    _ ≤ 2 ^ n := Nat.pow_le_pow_right (by decide) hshift
  have hsmall : field.toNat < 2 ^ n := by
    have hle : 2 ^ 16 ≤ 2 ^ n := Nat.pow_le_pow_right (by decide) (by omega)
    exact Nat.lt_of_lt_of_le field.isLt hle
  rw [withField, hkeep, BitVec.toNat_or, BitVec.toNat_shiftLeft, BitVec.toNat_setWidth,
    Nat.mod_eq_of_lt hsmall, Nat.shiftLeft_eq, Nat.mod_eq_of_lt hfield, Nat.mul_comm, Nat.add_comm,
    Nat.two_pow_add_eq_or_of_lt hx, Nat.or_comm]

/-- The low bits of a number are those below a field, and the field. -/
theorem emod_two_pow_add (value : Int) (shift : Nat) :
    value % modulus (shift + 16) =
      value % modulus shift + modulus shift * (value / modulus shift % modulus 16) := by
  have hmul : (modulus (shift + 16) : Int) = modulus shift * modulus 16 := by
    exact_mod_cast Nat.pow_add 2 shift 16
  have hpos : (0 : Int) < modulus shift := Int.natCast_pos.mpr (Nat.two_pow_pos shift)
  rw [hmul]
  generalize (modulus shift : Int) = m at hpos
  have hlow := Int.emod_add_mul_ediv value m
  have hhigh := Int.emod_add_mul_ediv (value / m) (modulus 16)
  have hlow₀ := Int.emod_nonneg value (Int.ne_of_gt hpos)
  have hlow₁ := Int.emod_lt_of_pos value hpos
  have hhigh₀ := Int.emod_nonneg (value / m) (b := modulus 16) (by decide)
  have hhigh₁ := Int.emod_lt_of_pos (value / m) (b := modulus 16) (by decide)
  refine ((Int.ediv_emod_unique (q := value / m / modulus 16) (Int.mul_pos hpos (by decide))).mpr
    ⟨?_, ?_, ?_⟩).2
  · linear_combination hlow + m * hhigh
  · exact Int.add_nonneg hlow₀ (Int.mul_nonneg (Int.le_of_lt hpos) hhigh₀)
  · nlinarith

end Word

namespace Target.AArch64

/-! ## Registers -/

/-- The registers `w0` to `w30` and `x0` to `x30`. -/
def IsGeneralPurpose (reg : RegId) : Prop := reg < s 0

instance : DecidablePred IsGeneralPurpose := fun reg => Nat.decLt reg (s 0)

def widthOf (reg : RegId) : Nat := (registers.get? reg).elim 64 (·.bits)

theorem IsGeneralPurpose.widthOf {reg : RegId} (h : IsGeneralPurpose reg) :
    widthOf reg = 32 ∨ widthOf reg = 64 := by
  have hbanks : ∀ reg < s 0, AArch64.widthOf reg = 32 ∨ AArch64.widthOf reg = 64 := by
    decide +kernel
  exact hbanks reg h

/-- What the full-width registers hold. -/
abbrev Contents := RegId → BitVec 64

namespace Contents

def read (σ : Contents) (reg : RegId) : BitVec (widthOf reg) :=
  (σ (registers.root reg)).setWidth (widthOf reg)

/-- The contents after a register got a value; above a narrow view there are zeros. -/
def write (σ : Contents) (reg : RegId) (value : BitVec (widthOf reg)) : Contents :=
  Function.update σ (registers.root reg) (value.setWidth 64)

variable {σ : Contents} {reg : RegId} {value : BitVec (widthOf reg)}

theorem widthOf_le (reg : RegId) : widthOf reg ≤ 64 := by
  have hwidth : ∀ r ∈ registers.file, r.bits ≤ 64 := by
    decide +kernel
  rw [widthOf]
  cases hr : registers.get? reg with
  | none => exact Nat.le_refl 64
  | some r => exact hwidth r (List.mem_of_getElem? hr)

@[simp] theorem read_write : (σ.write reg value).read reg = value := by
  rw [read, write, Function.update_self, BitVec.setWidth_setWidth_of_le _ (widthOf_le reg),
    BitVec.setWidth_eq]

theorem write_of_ne {r : RegId} (h : r ≠ registers.root reg) : σ.write reg value r = σ r :=
  Function.update_of_ne h _ _

end Contents

/-! ## Moves -/

/-- A move sets the whole register to a constant, and a keeping move replaces one of its fields. -/
def step (i : Instruction) (σ : Contents) : Option Contents :=
  match (i.operands.map (·.kind) : List Operand.Kind) with
  | [.physicalReg reg, .immediate value] =>
    if i.opcode = Op.movI.opcode then some (σ.write reg (.ofInt _ value)) else none
  | [.physicalReg reg, .immediate field, .immediate shift] =>
    if i.opcode = Op.movk.opcode then
      some (σ.write reg (Word.withField (σ.read reg) shift.toNat (.ofInt 16 field)))
    else none
  | _ => none

theorem step_move {i : Instruction} {reg : RegId} {value : Int} (hop : i.opcode = Op.movI.opcode)
    (hkinds : i.operands.map (·.kind) = [.physicalReg reg, .immediate value]) (σ : Contents) :
    step i σ = some (σ.write reg (.ofInt _ value)) := by
  rw [step, hkinds]
  exact if_pos hop

theorem step_keep {i : Instruction} {reg : RegId} {field shift : Int}
    (hop : i.opcode = Op.movk.opcode)
    (hkinds : i.operands.map (·.kind) = [.physicalReg reg, .immediate field, .immediate shift])
    (σ : Contents) : step i σ =
      some (σ.write reg (Word.withField (σ.read reg) shift.toNat (.ofInt 16 field))) := by
  rw [step, hkinds]
  exact if_pos hop

def run (is : List Instruction) (σ : Contents) : Option Contents :=
  is.foldlM (fun σ i => step i σ) σ

variable {σ σ' : Contents} {reg : RegId} {dest : Operand} {value : Int}

theorem run_cons (i : Instruction) (is : List Instruction) (σ : Contents) :
    run (i :: is) σ = (step i σ).bind (run is) := rfl

theorem run_append (is js : List Instruction) (σ : Contents) :
    run (is ++ js) σ = (run is σ).bind (run js) := by
  rw [run, List.foldlM_append]
  rfl

/-- Whether the contents are those of `σ` but for the register, which holds the number. -/
structure Holds (σ : Contents) (reg : RegId) (number : Int) (σ' : Contents) : Prop where
  value : ((σ'.read reg).toNat : Int) = number
  others : ∀ r ≠ registers.root reg, σ' r = σ r

theorem run_moveField (hdest : dest.kind = .physicalReg reg) {shift : Nat}
    (hwidth : shift + 16 ≤ widthOf reg) {σ₀ : Contents}
    (h : Holds σ₀ reg (value % Word.modulus shift) σ) :
    ∃ σ', run (moveField dest value shift) σ = some σ' ∧
      Holds σ₀ reg (value % Word.modulus (shift + 16)) σ' := by
  have hsplit := Word.emod_two_pow_add value shift
  rw [moveField]
  split
  · next hzero =>
    rw [hsplit, hzero, Int.mul_zero, Int.add_zero]
    exact ⟨σ, rfl, h⟩
  generalize hfield : value / Word.modulus shift % Word.modulus 16 = field at hsplit
  have hrun : run [Op.movk.on [dest, .immediate field dest.ty, .immediate shift dest.ty]] σ =
      some (σ.write reg (Word.withField (σ.read reg) shift (.ofInt 16 field))) := by
    have hkinds : (Op.movk.on
        [dest, .immediate field dest.ty, .immediate shift dest.ty]).operands.map (·.kind) =
          [.physicalReg reg, .immediate field, .immediate shift] := congrArg (· :: _) hdest
    rw [run_cons, step_keep rfl hkinds]
    rfl
  refine ⟨_, hrun, ?_, fun r hr => (Contents.write_of_ne hr).trans (h.others r hr)⟩
  have hlow : (σ.read reg).toNat < 2 ^ shift := by
    have hlt := Int.emod_lt_of_pos value (Int.natCast_pos.mpr (Nat.two_pow_pos shift))
    rw [← Int.ofNat_lt, h.value]
    exact hlt
  have hbits : ((BitVec.ofInt 16 field).toNat : Int) = field := by
    rw [← hfield, BitVec.toNat_ofInt]
    exact (Word.cast_low 16 _).trans (Int.emod_emod _ _)
  rw [Contents.read_write, Word.toNat_withField hlow hwidth, Int.natCast_add, Int.natCast_mul,
    h.value, hbits]
  exact hsplit.symm

/-- The fields of a constant are put into the register that holds the lowest of them. -/
theorem run_fields (hdest : dest.kind = .physicalReg reg) {m : Nat}
    (hwidth : 16 * (m + 1) ≤ widthOf reg) {σ₀ : Contents}
    (h : Holds σ₀ reg (value % Word.modulus 16) σ) :
    ∃ σ', run (((List.range m).map fun k => 16 * (k + 1)).flatMap (moveField dest value)) σ =
      some σ' ∧ Holds σ₀ reg (value % Word.modulus (16 * (m + 1))) σ' := by
  induction m with
  | zero =>
    rw [Nat.zero_add, Nat.mul_one]
    exact ⟨σ, rfl, h⟩
  | succ m ih =>
    obtain ⟨σ₁, hrun, h₁⟩ := ih (by omega)
    rw [List.range_succ, List.map_append, List.flatMap_append, run_append, hrun, Option.bind_some]
    simp only [List.map_cons, List.map_nil, List.flatMap_singleton]
    exact run_moveField hdest (by omega) h₁

theorem Holds.setWidth_read {d width : Nat}
    (h : Holds σ reg (value % Word.modulus width) σ') (hd : d ≤ width) :
    (σ'.read reg).setWidth d = BitVec.ofInt d value := calc
  (σ'.read reg).setWidth d = BitVec.ofInt d ((σ'.read reg).toNat : Int) := by
    rw [BitVec.ofInt_natCast, BitVec.ofNat_toNat]
  _ = BitVec.ofInt d (Word.low width value) := by rw [h.value, Word.cast_low]; rfl
  _ = BitVec.ofInt d value := by rw [Word.ofInt_low, Word.setWidth_ofInt hd]

/-! ## Fields -/

theorem opcode_of_mem_moveField {i : Instruction} {shift : Nat}
    (h : i ∈ moveField dest value shift) : i.opcode = Op.movk.opcode := by
  rw [moveField] at h
  split at h
  · cases h
  · cases List.mem_singleton.mp h
    rfl

theorem length_moveField_le (dest : Operand) (value : Int) (shift : Nat) :
    (moveField dest value shift).length ≤ 1 := by
  rw [moveField]
  split <;> simp

theorem length_flatMap_moveField_le (dest : Operand) (value : Int) (shifts : List Nat) :
    (shifts.flatMap (moveField dest value)).length ≤ shifts.length := by
  induction shifts with
  | nil => exact Nat.le_refl 0
  | cons shift shifts ih =>
    have hfield := length_moveField_le dest value shift
    rw [List.flatMap_cons, List.length_append, List.length_cons]
    omega

/-! ## Constants -/

/-- Code that leaves a constant of some width in a register, whatever was there before: a move of a
small constant, and at most three moves that keep the other fields. -/
structure Materializes (reg : RegId) (width : Nat) (v : Int) (move : Instruction)
    (keeping : List Instruction) : Prop where
  opcode : move.opcode = Op.movI.opcode
  small : ∃ n, (move.operand? 1).bind (·.immediate?) = some n ∧ -65536 ≤ n ∧ n ≤ 65535
  keeps : ∀ i ∈ keeping, i.opcode = Op.movk.opcode
  count : keeping.length ≤ 3
  run : ∀ σ, ∃ σ', run (move :: keeping) σ = some σ' ∧
    (σ'.read reg).setWidth width = BitVec.ofInt width v ∧ ∀ r ≠ registers.root reg, σ' r = σ r

theorem Materializes.congr {width : Nat} {v v' : Int} {move : Instruction}
    {keeping : List Instruction} (h : Materializes reg width v move keeping)
    (hv : BitVec.ofInt width v = BitVec.ofInt width v') :
    Materializes reg width v' move keeping :=
  ⟨h.opcode, h.small, h.keeps, h.count, hv ▸ h.run⟩

theorem immediate?_of_kinds
    {move : Instruction} {n : Int}
    (hkinds : move.operands.map (·.kind) = [.physicalReg reg, .immediate n]) :
    (move.operand? 1).bind (·.immediate?) = some n := by
  obtain ⟨_, _, hoperands, -, hrest⟩ := List.map_eq_cons_iff.mp hkinds
  obtain ⟨_, _, rfl, hkind, -⟩ := List.map_eq_cons_iff.mp hrest
  rw [Instruction.operand?, hoperands]
  show Operand.immediate? _ = some n
  rw [Operand.immediate?, hkind]

section

variable {move : Instruction} {n : Int} {width : Nat} (hop : move.opcode = Op.movI.opcode)
include hop

theorem materializes_small (hkinds : move.operands.map (·.kind) = [.physicalReg reg, .immediate n])
    (hlow : -65536 ≤ n) (hhigh : n ≤ 65535) (hwidth : width ≤ widthOf reg) :
    Materializes reg width n move [] where
  opcode := hop
  small := ⟨n, immediate?_of_kinds hkinds, hlow, hhigh⟩
  keeps _ h := absurd h List.not_mem_nil
  count := Nat.zero_le 3
  run σ := by
    have hrun : run [move] σ = some (σ.write reg (.ofInt _ n)) := by
      rw [run_cons, step_move hop hkinds]
      rfl
    have hread : ((σ.write reg (.ofInt _ n)).read reg).setWidth width = BitVec.ofInt width n := by
      rw [Contents.read_write, Word.setWidth_ofInt hwidth]
    exact ⟨_, hrun, hread, fun r hr => Contents.write_of_ne hr⟩

/-- Any constant is moved by fields, of which there are enough for its type and no more than the
register has. -/
theorem materializes_fields
    (hkinds : move.operands.map (·.kind) = [.physicalReg reg, .immediate (n % Word.modulus 16)])
    (hdest : dest.kind = .physicalReg reg) (hreg : IsGeneralPurpose reg)
    (hwidth : width ≤ widthOf reg) :
    Materializes reg width n move ((fieldShifts (max width 32)).flatMap (moveField dest n)) where
  opcode := hop
  small := by
    have hlow := Int.emod_nonneg n (b := Word.modulus 16) (by decide)
    have hhigh := Int.emod_lt_of_pos n (b := Word.modulus 16) (by decide)
    have hmodulus : ((Word.modulus 16 : Nat) : Int) = 65536 := rfl
    exact ⟨_, immediate?_of_kinds hkinds, by omega, by omega⟩
  keeps i hi := by
    obtain ⟨shift, -, hshift⟩ := List.mem_flatMap.mp hi
    exact opcode_of_mem_moveField hshift
  count := by
    have hcount := length_flatMap_moveField_le dest n (fieldShifts (max width 32))
    have hshifts : (fieldShifts (max width 32)).length = (max width 32 + 15) / 16 - 1 := by
      rw [fieldShifts, List.length_map, List.length_range]
    rcases hreg.widthOf with h | h <;> omega
  run σ := by
    have hfits : 16 * ((max width 32 + 15) / 16 - 1 + 1) ≤ widthOf reg := by
      rcases hreg.widthOf with h | h <;> omega
    have hmoved : Holds σ reg (n % Word.modulus 16)
        (σ.write reg (.ofInt _ (n % Word.modulus 16))) := by
      refine ⟨?_, fun r hr => Contents.write_of_ne hr⟩
      have hle : (Word.modulus 16 : Int) ≤ ((2 ^ widthOf reg : Nat) : Int) :=
        Int.ofNat_le.mpr (Nat.pow_le_pow_right (by decide) (by omega))
      have hlow := Int.emod_nonneg n (b := Word.modulus 16) (by decide)
      have hhigh := Int.emod_lt_of_pos n (b := Word.modulus 16) (by decide)
      rw [Contents.read_write, BitVec.toNat_ofInt, Int.emod_eq_of_lt hlow (by omega),
        Int.toNat_of_nonneg hlow]
    obtain ⟨σ', hrun, h⟩ := run_fields hdest hfits hmoved
    refine ⟨σ', ?_, h.setWidth_read (by omega), h.others⟩
    rw [run_cons, step_move hop hkinds]
    exact hrun

end

variable {site : Site} {source : Operand} {v : Int}

/-- A constant is selected as a move of a small number with the low bits of the constant, or as the
fields of a number with these bits. -/
theorem selectConstant_eq (hoperands : site.instruction.operands = [dest, source])
    (hv : source.immediate? = some v) (hwidth : dest.size ≤ 64) :
    ∃ value small : Int, BitVec.ofInt dest.size value = BitVec.ofInt dest.size v ∧
      BitVec.ofInt dest.size small = BitVec.ofInt dest.size v ∧
      selectConstant site =
        let move := site.instruction.setOpcode Op.movI.opcode
        .ok (if -65536 ≤ small ∧ small ≤ 65535 then
            ⟨move.replaceOperand 1 (.immediate small dest.ty), []⟩
          else ⟨move.replaceOperand 1 (.immediate (value % Word.modulus 16) dest.ty),
            (fieldShifts (max dest.size 32)).flatMap (moveField dest value)⟩) := by
  have hdest : site.operand 0 = .ok dest := by
    rw [Site.operand, Instruction.operand?, hoperands]
    rfl
  have hsource : site.operand 1 = .ok source := by
    rw [Site.operand, Instruction.operand?, hoperands]
    rfl
  rw [selectConstant, hdest, hsource]
  simp only [ok_bind, hv, orFail]
  by_cases hnarrow : max dest.size 32 = 32
  · have hle : dest.size ≤ 32 := by omega
    refine ⟨Word.low 32 v, Word.signed 32 (Word.low 32 v), ?_, ?_, ?_⟩
    · rw [Word.ofInt_low, Word.setWidth_ofInt hle]
    · rw [Word.ofInt_signed_low, BitVec.signExtend_eq_setWidth_of_le _ hle,
        Word.setWidth_ofInt hle]
    · simp only [hnarrow, if_true]
      split <;> rfl
  · refine ⟨v, v, rfl, rfl, ?_⟩
    simp only [hnarrow, if_false]
    split
    · rfl
    · rw [if_neg (by omega)]
      rfl

theorem materializes_selectConstant (hreg : IsGeneralPurpose reg)
    (hoperands : site.instruction.operands = [dest, source]) (hdest : dest.kind = .physicalReg reg)
    (hwidth : dest.size ≤ widthOf reg) (hv : source.immediate? = some v) :
    ∃ form, selectConstant site = .ok form ∧
      Materializes reg dest.size v (widenRegisters form.first) form.rest := by
  obtain ⟨value, small, hvalue, hsmall, hselect⟩ := selectConstant_eq hoperands hv
    (hwidth.trans (Contents.widthOf_le reg))
  have hkinds : ∀ n : Int, (widenRegisters ((site.instruction.setOpcode
      Op.movI.opcode).replaceOperand 1 (.immediate n dest.ty))).operands.map (·.kind) =
        [.physicalReg reg, .immediate n] := by
    intro n
    rw [Function.map_kind_widenRegisters, Instruction.replaceOperand,
      Instruction.operands_withOperands]
    show (site.instruction.operands.set 1 _).map _ = _
    rw [hoperands]
    exact congrArg (· :: _) hdest
  refine ⟨_, hselect, ?_⟩
  split
  · next h => exact (materializes_small rfl (hkinds small) h.1 h.2 hwidth).congr hsmall
  · exact (materializes_fields rfl (hkinds _) hdest hreg hwidth).congr hvalue

/-- **Constants are exact.**  Where an instruction moves a constant into a general-purpose register
as wide as its type, selection puts code in its place that leaves the low bits of the constant in
the register. -/
theorem materializes_selectAt {f : Machine.Function} {b k : Nat} {i : Instruction} {op : GenericOp}
    (hi : f.instruction? b k = some i) (hop : i.opcode = .generic op)
    (hmoves : op = .loadImm ∨ op = .mov) (hoperands : i.operands = [dest, source])
    (hdest : dest.kind = .physicalReg reg) (hreg : IsGeneralPurpose reg)
    (hwidth : dest.size ≤ widthOf reg) (hv : source.immediate? = some v) :
    ∃ move keeping, aarch64.selectAt f b k =
        .ok (k + (move :: keeping).length, f.replaceAt b k (move :: keeping)) ∧
      Materializes reg dest.size v move keeping := by
  let site : Site := { function := f, block := b, index := k, instruction := i }
  have hoperands' : site.instruction.operands = [dest, source] := hoperands
  obtain ⟨form, hform, hmaterializes⟩ :=
    materializes_selectConstant hreg hoperands' hdest hwidth hv
  have hselectForm : selectForm registers site op = .ok form := by
    rcases hmoves with rfl | rfl
    · exact hform
    · have hsource : site.operand 1 = .ok source := by
        show orFail _ (i.operand? 1) = _
        rw [Instruction.operand?, hoperands]
        rfl
      have himmediate : source.isImmediate = true := Operand.isImmediate_iff.mpr ⟨v, hv⟩
      show selectMove registers site = _
      rw [selectMove, hsource, ok_bind, himmediate, if_pos rfl, hform]
  have hselect : aarch64.select site op =
      .ok { form with first := widenRegisters form.first } := by
    show AArch64.select registers site op = _
    rw [AArch64.select, hselectForm]
    rfl
  have hselected : (widenRegisters form.first).isSelected := by
    rw [Instruction.isSelected, hmaterializes.opcode]
    rfl
  exact ⟨_, _, Function.selectAt_of_select hi hop hselect hselected, hmaterializes⟩

/-- A negative constant of an odd width, moved into a 64-bit register. -/
def distant : Machine.Function where
  name := "distant"
  blocks := [⟨"entry", [Instruction.generic .loadImm
    [.physicalReg (x 0) (.integer 33), .immediate (-0xdeadbeef) (.integer 33)]]⟩]

theorem materializes_distant : IsGeneralPurpose (x 0) ∧ 33 ≤ widthOf (x 0) ∧
    ∃ move keeping, aarch64.selectAt distant 0 0 =
        .ok ((move :: keeping).length, distant.replaceAt 0 0 (move :: keeping)) ∧
      Materializes (x 0) 33 (-0xdeadbeef) move keeping := by
  have hreg : IsGeneralPurpose (x 0) := by decide
  have hwidth : 33 ≤ widthOf (x 0) := by decide +kernel
  obtain ⟨move, keeping, hselect, hmaterializes⟩ := materializes_selectAt (f := distant) (b := 0)
    (k := 0) rfl rfl (.inl rfl) rfl rfl hreg hwidth rfl
  rw [Nat.zero_add] at hselect
  exact ⟨hreg, hwidth, move, keeping, hselect, hmaterializes⟩

end Target.AArch64

end Retarget
