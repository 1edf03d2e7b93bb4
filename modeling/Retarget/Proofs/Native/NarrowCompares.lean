import Retarget.Pipeline
import Retarget.Proofs.Lowering.Runs
import Retarget.Proofs.Native.ConstantCompares

/-!
# Compares of narrow integers

A load of a signed byte or halfword and a compare of it with a constant are lowered without an
extension in between, so that the load decides which number is compared: the signed one on RV32, the
unsigned one on AArch64 (`Lowering.compares_loaded`).  For a negative number in memory, the code on
AArch64 compares a number above every constant of the type.
-/

namespace Retarget

open Machine Target

/-! ## Lowering -/

namespace Lowering

variable {c : Scope} {s s' : State} {next : Option String}

theorem run_tempReg_of_lookup {id : Ir.TempId} {reg : RegId} {ty : LowType}
    (h : s.temps.lookup id = some reg) : (tempReg id ty).run s = .ok (.virtualReg reg ty, s) := by
  rw [tempReg, run_get_bind, h]
  rfl

theorem exists_run_tempReg (id : Ir.TempId) (ty : LowType)
    (hroom : s.function.nextId + 1 < Word.modulus 32) :
    ∃ reg s', (tempReg id ty).run s = .ok (.virtualReg reg ty, s') ∧
      s'.temps.lookup id = some reg ∧ s'.code = s.code := by
  cases h : s.temps.lookup id with
  | some reg => exact ⟨reg, s, run_tempReg_of_lookup h, h, rfl⟩
  | none =>
    rw [tempReg, run_get_bind, h]
    exact ⟨_, _, run_bind_eq_ok.mpr ⟨_, _, run_freshId_eq_ok.mpr ⟨hroom, rfl, rfl⟩, rfl⟩,
      List.lookup_cons_self, rfl⟩

theorem isPlace_of_run_location {ptr : Ir.Value} {ty : LowType} {o : Operand}
    (h : (c.location ptr ty).run s = .ok (o, s')) : o.isPlace := by
  rw [Scope.location, run_get_bind] at h
  cases hobject : s.frameObject? ptr with
  | some slot =>
    rw [hobject] at h
    cases h
    rfl
  | none =>
    rw [hobject] at h
    dsimp only at h
    split at h
    · cases h
    · obtain ⟨base, s₁, -, h⟩ := run_bind_eq_ok.mp h
      cases hbase : base.unallocated? with
      | some reg =>
        rw [hbase] at h
        cases h
        rfl
      | none =>
        rw [hbase] at h
        cases h

theorem exists_integerLoad {bits : UInt8} {isSigned : Bool} {temp : Ir.TempId} {ptr : Ir.Value}
    {place : Operand} (hplace : (c.location ptr (.integer bits.toNat)).run s = .ok (place, s'))
    (hroom : s'.function.nextId + 1 < 2 ^ 32) :
    ∃ v s₁, (c.lowerInstruction next (.load temp ptr (.int bits isSigned))).run s = .ok ((), s₁) ∧
      place.isPlace ∧ s₁.temps.lookup temp = some v ∧
      s₁.code = s'.code.push (integerLoad bits.toNat v place) := by
  obtain ⟨v, s₁, hdest, hv, hcode⟩ := exists_run_tempReg temp (.integer bits.toNat) hroom
  refine ⟨v, _, run_bind_eq_ok.mpr ⟨_, _, hplace, run_bind_eq_ok.mpr ⟨_, _, hdest, rfl⟩⟩,
    isPlace_of_run_location hplace, hv, ?_⟩
  rw [← hcode]
  rfl

theorem exists_constantCompare {bits : UInt8} {isSigned : Bool} {temp result : Ir.TempId}
    {v : RegId} (relation : Ir.Relation) (constant : Int64) (hv : s.temps.lookup temp = some v)
    (hlocal : s.frameObject? (.temp temp (.int bits isSigned)) = none)
    (hroom : s.function.nextId + 1 < 2 ^ 32) :
    ∃ d s', (c.lowerInstruction next (.compare result relation (.temp temp (.int bits isSigned))
        (.constant constant (.int bits isSigned)))).run s = .ok ((), s') ∧
      s'.temps.lookup result = some d ∧
      s'.code = s.code.push
        (constantCompare bits.toNat (Lowering.relation relation) d v constant.toInt) := by
  obtain ⟨d, s₁, hdest, hd, hcode⟩ := exists_run_tempReg result (.integer 1) hroom
  have hlhs : (c.operand (.temp temp (.int bits isSigned))).run s =
      .ok (.virtualReg v (.integer bits.toNat), s) := by
    rw [Scope.operand, run_get_bind, hlocal]
    exact run_tempReg_of_lookup hv
  refine ⟨d, _, run_bind_eq_ok.mpr ⟨_, _, hlhs, run_bind_eq_ok.mpr ⟨_, _, rfl,
    run_bind_eq_ok.mpr ⟨_, _, hdest, rfl⟩⟩⟩, hd, ?_⟩
  rw [← hcode]
  rfl

end Lowering

/-! ## Numbers -/

def Ir.Relation.holds (r : Ir.Relation) (m n : Int) : Bool :=
  match r with
  | .eq => m == n
  | .ne => m != n
  | .lt => m < n
  | .gt => n < m
  | .le => m ≤ n
  | .ge => n ≤ m

theorem Ir.Relation.holds_of_lt (r : Ir.Relation) {m n : Int} (h : n < m) :
    r.holds m n = r.holds 1 0 := by
  cases r <;> simp only [holds] <;> simp <;> omega

namespace Lowering

theorem holds_relation {width : Nat} (r : Ir.Relation) (x y : BitVec width) :
    (relation r).holds x y = r.holds x.toInt y.toInt := by
  have heq : (x == y) = (x.toInt == y.toInt) := by
    rw [Bool.eq_iff_iff, beq_iff_eq, beq_iff_eq, BitVec.toInt_inj]
  cases r with
  | eq => exact heq
  | ne => exact congrArg not heq
  | lt | gt | le | ge => rfl

end Lowering

namespace Target

variable {bits : Nat} {constant : Int}

theorem toInt_ofInt_of_small {v : Int} (hlow : -65536 ≤ v) (hhigh : v ≤ 65535) :
    (BitVec.ofInt 32 v).toInt = v := by
  rw [BitVec.toInt_ofInt]
  exact Int.bmod_eq_of_le (by omega) (by omega)

/-- On RV32, narrow integers are compared as signed numbers. -/
theorem Riscv.comparesLoaded (hbits : bits = 8 ∨ bits = 16) (r : Ir.Relation)
    (hlow : -65536 ≤ constant) (hhigh : constant ≤ 65535) :
    platform.ComparesLoaded bits (Lowering.relation r) constant fun word =>
      r.holds word.toInt constant := by
  refine Platform.comparesLoaded_of (loads_signed hbits)
    (compares (by omega) (Lowering.relation r) (by omega)) fun word => ?_
  rw [BitVec.ofNat_toNat, BitVec.setWidth_eq, Lowering.holds_relation,
    BitVec.toInt_signExtend_of_le (by omega), toInt_ofInt_of_small hlow hhigh]

/-- On AArch64, narrow integers are compared as unsigned numbers. -/
theorem AArch64.comparesLoaded (hbits : bits = 8 ∨ bits = 16) (r : Ir.Relation)
    (hlow : -65536 ≤ constant) (hhigh : constant ≤ 65535) :
    platform.ComparesLoaded bits (Lowering.relation r) constant fun word =>
      r.holds word.toNat constant := by
  refine Platform.comparesLoaded_of (loads_unsigned hbits)
    (compares (by omega) (Lowering.relation r) hlow hhigh) fun word => ?_
  have hword : word.toNat < 2 ^ 16 := Nat.lt_of_lt_of_le word.isLt
    (Nat.pow_le_pow_right (by decide) (by omega))
  have htoInt : (BitVec.ofNat 32 word.toNat).toInt = word.toNat := by
    rw [BitVec.toInt_eq_toNat_bmod, BitVec.toNat_ofNat, Nat.mod_eq_of_lt (by omega)]
    exact Int.bmod_eq_of_le (by omega) (by omega)
  rw [Lowering.holds_relation, htoInt, toInt_ofInt_of_small hlow hhigh]

end Target

namespace Lowering

/-- Loads of an integer type are lowered to loads from the location of their pointer into the
register of the temporary, while there are ids. -/
def LowersLoads (n : UInt8) : Prop :=
  ∀ (c : Scope) (s s₁ : State) (next : Option String) (temp : Ir.TempId) (ptr : Ir.Value)
    (place : Operand), (c.location ptr (.integer n.toNat)).run s = .ok (place, s₁) →
    s₁.function.nextId + 1 < 2 ^ 32 →
    ∃ v s', (c.lowerInstruction next (.load temp ptr (.int n true))).run s = .ok ((), s') ∧
      place.isPlace ∧ s'.temps.lookup temp = some v ∧
      s'.code = s₁.code.push (integerLoad n.toNat v place)

/-- Compares of temporaries of an integer type with a constant are lowered to compares of their
registers with it, while there are ids. -/
def LowersCompares (n : UInt8) (r : Ir.Relation) (constant : Int64) : Prop :=
  ∀ (c : Scope) (s : State) (next : Option String) (result temp : Ir.TempId) (v : RegId),
    s.temps.lookup temp = some v → s.frameObject? (.temp temp (.int n true)) = none →
    s.function.nextId + 1 < 2 ^ 32 →
    ∃ d s', (c.lowerInstruction next (.compare result r (.temp temp (.int n true))
        (.constant constant (.int n true)))).run s = .ok ((), s') ∧
      s'.temps.lookup result = some d ∧
      s'.code = s.code.push (constantCompare n.toNat (relation r) d v constant.toInt)

/-- **When compares of narrow integers follow their type.**  A load of 8 or 16 signed bits and a
compare of what it loaded with a constant of that type are lowered to a load and a compare, and
native code of these answers whether the relation holds: on RV32 of the signed number that was in
memory and the constant, on AArch64 of the unsigned one.  So both answer the same for numbers that
are not negative, and for negative ones only if the relation is to be answered as for any number
above the constant. -/
theorem compares_loaded {n : UInt8} (hn : n = 8 ∨ n = 16) (r : Ir.Relation) {constant : Int64}
    (hlow : -2 ^ (n.toNat - 1) ≤ constant.toInt) (hhigh : constant.toInt < 2 ^ (n.toNat - 1)) :
    LowersLoads n ∧ LowersCompares n r constant ∧
    Target.Riscv.platform.ComparesLoaded n.toNat (relation r) constant.toInt
      (fun word => r.holds word.toInt constant.toInt) ∧
    Target.AArch64.platform.ComparesLoaded n.toNat (relation r) constant.toInt
      (fun word => r.holds word.toNat constant.toInt) ∧
    ∀ word : BitVec n.toNat,
      r.holds word.toNat constant.toInt = r.holds word.toInt constant.toInt ↔
        (word.toInt < 0 → r.holds word.toInt constant.toInt = r.holds 1 0) := by
  have hbits : n.toNat = 8 ∨ n.toNat = 16 := by
    rcases hn with rfl | rfl
    exacts [.inl rfl, .inr rfl]
  have hsmall : -65536 ≤ constant.toInt ∧ constant.toInt ≤ 65535 := by
    rcases hbits with h | h <;> rw [h] at hlow hhigh <;> omega
  refine ⟨fun c s s₁ next temp ptr place => exists_integerLoad,
    fun c s next result temp v hv hlocal hroom => exists_constantCompare r constant hv hlocal hroom,
    Target.Riscv.comparesLoaded hbits r hsmall.1 hsmall.2,
    Target.AArch64.comparesLoaded hbits r hsmall.1 hsmall.2, fun word => ?_⟩
  have hhalf : 2 ^ n.toNat = 2 * 2 ^ (n.toNat - 1) := by
    rcases hbits with h | h <;> rw [h] <;> rfl
  by_cases hneg : word.toInt < 0
  · -- read as unsigned, the number is above the constant
    have hword : 2 ^ (n.toNat - 1) ≤ word.toNat := by
      have hle := BitVec.toInt_neg_iff.mp hneg
      omega
    have habove : constant.toInt < word.toNat :=
      Int.lt_of_lt_of_le hhigh (by exact_mod_cast hword)
    rw [r.holds_of_lt habove, eq_comm, imp_iff_right hneg]
  · have hsame : word.toInt = word.toNat := by
      refine BitVec.toInt_eq_toNat_of_lt (Nat.lt_of_not_le fun hle => ?_)
      exact hneg (BitVec.toInt_neg_iff.mpr hle)
    rw [hsame]
    exact iff_of_true rfl fun h => absurd h (by omega)

/-- A loaded byte is compared with minus one. -/
def compared : Machine.Function where
  name := "compared"
  blocks := [⟨"entry",
    [integerLoad 8 0 (.memory 2 0 (.integer 8)), constantCompare 8 .eq 1 0 (-1)]⟩]
  nextId := 3

/-- The address, the byte and the result share a register, and new ids get the registers from `6`
on. -/
def comparedHome (id : RegId) : RegId := if id < 3 then 10 else id + 3

def comparedHomes : List (RegId × RegId) := (List.range 7).map fun id => (id, comparedHome id)

theorem houses_compared {next' : Nat} (hbound : next' ≤ 7) :
    Target.Riscv.platform.Houses comparedHomes comparedHome [1, 0] 3 next' := by
  have hid : ∀ id : Nat, id ∈ [1, 0] ∨ 3 ≤ id ∧ id < next' → id < 7 := by
    intro id hid
    simp only [List.mem_cons, List.not_mem_nil, or_false] at hid
    omega
  have hassigned : ∀ id : Nat, id < 7 → comparedHomes.lookup id = some (comparedHome id) := by
    decide
  have hgeneral : ∀ id : Nat, id < 7 → comparedHome id ≠ Target.Riscv.zero := by decide
  have hdistinct : ∀ new : Nat, new < 7 → 3 ≤ new → ∀ id < new,
      Target.riscv32.registers.root (comparedHome id) ≠
        Target.riscv32.registers.root (comparedHome new) := by
    decide +kernel
  refine ⟨fun id h => hassigned id (hid id h), fun id h => hgeneral id (hid id h),
    fun id h new hle hlt => ?_, fun id new hle hlt hlt' => ?_⟩
  · have hsmall : id < 3 := by
      simp only [List.mem_cons, List.not_mem_nil, or_false] at h
      rcases h with rfl | rfl <;> decide
    exact hdistinct new (hid new (.inr ⟨hle, hlt⟩)) hle id (Nat.lt_of_lt_of_le hsmall hle)
  · exact hdistinct new (hid new (.inr ⟨Nat.le_trans hle (Nat.le_of_lt hlt), hlt'⟩))
      (Nat.le_trans hle (Nat.le_of_lt hlt)) id hlt

/-- Minus one in memory is minus one on RV32. -/
theorem compares_loaded_minus_one : ∃ g legal load loading placed,
    compared.LegalizesTo Target.riscv32 0 1 [constantCompare 8 .eq 1 0 (-1)] legal g ∧
    compared.placeInstruction Target.riscv32 comparedHomes
      (integerLoad 8 0 (.memory 2 0 (.integer 8))) = .ok load ∧
    Function.SelectsTo Target.riscv32 [load] loading ∧
    legal.mapM (g.placeInstruction Target.riscv32 comparedHomes) = .ok placed ∧
    Function.SelectsInto Target.riscv32 placed fun _ _ _ comparing =>
      ∀ s : Target.Riscv.Processor, s.memory.loadBits (s.read 10 + .ofInt 32 0) 8 = 0xff →
        ∃ s₁ s₂, Target.Riscv.Processor.run loading s = some s₁ ∧
          Target.Riscv.Processor.run comparing s₁ = some s₂ ∧ (s₂.read 10).toNat = 1 := by
  obtain ⟨-, -, hsigned, -, -⟩ := compares_loaded (n := 8) (.inl rfl) .eq
    (show -2 ^ ((8 : UInt8).toNat - 1) ≤ (-1 : Int64).toInt by decide) (by decide)
  obtain ⟨-, g, legal, hlegalizes, hnext, hcode⟩ :=
    hsigned compared compared 0 0 0 1 1 0 (.memory 2 0 (.integer 8)) rfl rfl rfl (by decide)
  have hresolve : compared.resolveMemory Target.riscv32 comparedHomes (.memory 2 0 (.integer 8)) =
      .ok (10, 0) := by
    show Except.ok (Target.Riscv.registers.withWidth 10 32, (0 : Int)) = _
    rw [Target.Riscv.withWidth_eq]
  obtain ⟨load, loading, placed, hload, hselects, hplaced, hselects'⟩ :=
    hcode comparedHomes comparedHome 10 0 (houses_compared hnext) hresolve trivial
  refine ⟨g, legal, load, loading, placed, hlegalizes, hload, hselects, hplaced,
    hselects'.mono fun F n m comparing hanswers s hs => ?_⟩
  obtain ⟨s₁, hs₁, hrun⟩ := hanswers s
  obtain ⟨s₂, hs₂, hread | ⟨-, hnone⟩⟩ := hrun s₁ rfl
  · refine ⟨s₁, s₂, hs₁, hs₂, hread.trans ?_⟩
    show (Ir.Relation.eq.holds (s.memory.loadBits (s.read 10 + .ofInt 32 0) 8).toInt (-1)).toNat = 1
    rw [hs]
    decide
  · cases hnone

end Lowering

namespace Options

open Target.AArch64

/-- A function that compares the byte its argument points to with minus one. -/
def comparing : Ir.Module where
  name := "m"
  functions := [{
    name := "f"
    returnType := .int 1 false
    parameters := [⟨"p", .ptr (.int 8 true), false⟩]
    blocks := [{
      name := "entry"
      instructions := [
        .load 0 (.param "p" (.ptr (.int 8 true))) (.int 8 true),
        .compare 1 .eq (.temp 0 (.int 8 true)) (.constant (-1) (.int 8 true)),
        .ret (some (.temp 1 (.int 1 false)))] }] }]

/-- A 32-bit register for an integer. -/
def wordView (n bits : Nat) : Operand := ⟨.physicalReg (w n), .integer bits, some gpr32⟩

/-- Its code on AArch64, up to the return. -/
def comparingCode : List Instruction :=
  [(Instruction.generic .load [wordView 1 32, .physicalReg (x 0) (.pointer 64),
      .immediate 0 (.integer 64)]).setOpcode Op.ldrb.opcode,
    (loadImmediate (wordView 2 32) (.immediate (-1) (.integer 8))).setOpcode Op.movI.opcode,
    ((Instruction.generic .cmp [wordView 1 32, wordView 2 32]).withRelation .eq).setOpcode
      Op.cmpR.opcode,
    (Op.csetEq.on [wordView 0 1]).withRelation .eq]

/-- The code never answers that they are equal: the load leaves zeros above the byte, and the
constant has ones there. -/
theorem run_comparingCode (s : Processor) :
    ∃ s', platform.run comparingCode s = some s' ∧ platform.read s' (w 0) = 0 := by
  let load := Instruction.generic .load [wordView 1 8, .physicalReg (x 0) (.pointer 64),
    .immediate 0 (.integer 64)]
  let move := loadImmediate (wordView 2 8) (.immediate (-1) (.integer 8))
  let compare := (Instruction.generic .cmp
    [wordView 0 1, wordView 1 8, wordView 2 8]).withRelation .eq
  have hforms : comparingCode = [loadForm load (wordView 1 8), moveForm move (wordView 2 8) (-1),
      compareForm compare (wordView 2 8), setForm .eq (wordView 0 1)] := by
    decide +kernel
  have hload := Processor.step_loadForm (i := load) rfl rfl (by decide +kernel) s rfl
    (show IsPlaced (wordView 1 8) (w 1) from ⟨rfl, by decide, rfl⟩)
  generalize hbyte : (s.wordAt (x 0) 0).setWidth (loadedBits (wordView 1 8).size) = byte at hload
  generalize hs₁ : s.write (w 1) (byte.setWidth _) = s₁ at hload
  have hmove := Processor.step_moveForm (i := move)
    (show move.operands = [wordView 2 8, _] from rfl) rfl (-1) s₁
  generalize hs₂ : s₁.write (w 2) (.ofInt _ (-1)) = s₂ at hmove
  have hword : IsWord s₂ (wordView 2 8) (.ofInt 32 (-1)) := by
    refine .inr ⟨w 2, rfl, rfl, ?_⟩
    rw [← hs₂, Processor.read_write]
    rfl
  have hkept : s₂.registers (registers.root (w 1)) = (byte.setWidth 32).setWidth 64 := by
    rw [← hs₂, Processor.registers_write_of_ne (by decide +kernel), ← hs₁,
      Processor.registers_write rfl]
    rfl
  obtain ⟨s', hs', hread | ⟨hbranch, -⟩⟩ := Processor.run_compareForm (i := compare) (r := .eq)
    rfl rfl rfl rfl rfl hword (show [_, _] = _ ∨ _ ∧ False from .inl rfl)
  · refine ⟨s', ?_, hread.trans ?_⟩
    · rw [hforms]
      show Processor.run (_ :: _ :: _) s = _
      rw [Processor.run_cons, hload, Option.bind_some, Processor.run_cons, hmove]
      exact hs'
    · have hzeros : ∀ byte : BitVec 8,
          ((byte.setWidth 32).setWidth 64).setWidth 32 ≠ .ofInt 32 (-1) := by
        intro byte
        bv_omega
      rw [hkept]
      exact congrArg Bool.toNat (beq_eq_false_iff_ne.mpr (hzeros byte))
  · exact hbranch.elim

/-- A byte that is minus one is not equal to minus one. -/
theorem not_compares_loaded : ∃ code, machineCode {} comparing = .ok code ∧
    code.functions.map (·.blocks.map (·.instructions)) =
      [[comparingCode ++ [(Instruction.generic .ret []).setOpcode Op.ret.opcode]]] ∧
    ∃ s s' : Processor,
      Ir.Relation.eq.holds (s.memory.loadBits (s.address (x 0) 0) 8).toInt (-1) ∧
      platform.run comparingCode s = some s' ∧ platform.read s' (w 0) = 0 := by
  have hcompiled :
      (machineCode {} comparing).map (·.functions.map (·.blocks.map (·.instructions))) =
        .ok [[comparingCode ++ [(Instruction.generic .ret []).setOpcode Op.ret.opcode]]] := by
    decide +kernel
  obtain ⟨code, hcode, hfunctions⟩ := map_eq_ok.mp hcompiled
  let s : Processor :=
    { registers := fun _ => 0, flags := .compare 0#32 0, memory := fun _ => 0xff }
  obtain ⟨s', hs', hread⟩ := run_comparingCode s
  exact ⟨code, hcode, hfunctions, s, s', by decide +kernel, hs', hread⟩

end Options

end Retarget
