import Retarget.Proofs.Encoding.Access
import Retarget.Proofs.Native.Extensions

/-!
# Loads into AArch64 registers

A load takes a byte, a halfword or a word from memory, or 64 bits into a 64-bit register, and leaves
zeros above them.  A zero extension of what was loaded takes bits of that register
(`FoldableLoad.exists_unfoldedCode`); legalization folds it into the load, which then extends by
itself and always loads into the 32-bit view of the destination
(`FoldableLoad.exists_foldedCode`).  The two differ for destinations of more than 32 bits that are
not wider than what was loaded (`folded_iff`).
-/

namespace Retarget

open Machine

namespace Machine.Memory

variable {p : Nat}

theorem load_mod (m : Memory p) (a : BitVec p) {few many : Nat} (h : few ≤ many) :
    m.load a many % 256 ^ few = m.load a few := by
  induction few generalizing a many with
  | zero => rw [Nat.pow_zero, Nat.mod_one]; rfl
  | succ few ih =>
    obtain ⟨many, rfl⟩ : ∃ n, many = n + 1 := ⟨many - 1, by omega⟩
    have hbyte : (m a).toNat < 256 := (m a).isLt
    rw [load, load, Nat.pow_succ', Nat.mod_mul, Nat.add_mul_mod_self_left, Nat.mod_eq_of_lt hbyte,
      Nat.add_mul_div_left _ _ (by decide), Nat.div_eq_of_lt hbyte, Nat.zero_add,
      ih (a + 1) (Nat.le_of_succ_le_succ h)]

theorem setWidth_loadBits (m : Memory p) (a : BitVec p) {n w : Nat} (h : n ≤ w) (hn : 8 ∣ n) :
    (m.loadBits a w).setWidth n = m.loadBits a n := by
  have hbytes : 8 * byteCount n = n := by
    rw [byteCount]
    omega
  have hpow : 2 ^ n = 256 ^ byteCount n := by
    rw [← hbytes, Nat.pow_mul, hbytes]
  have hle : byteCount n ≤ byteCount w := Nat.div_le_div_right (by omega)
  apply BitVec.eq_of_toNat_eq
  rw [loadBits, loadBits, BitVec.toNat_setWidth, BitVec.toNat_ofNat, BitVec.toNat_ofNat,
    Nat.mod_mod_of_dvd _ (Nat.pow_dvd_pow 2 h), ← load_mod m a hle, hpow, Nat.mod_mod]

end Machine.Memory

namespace Machine.Function

/-! ## Placement -/

variable {t : Target} {f : Function} {assigned : List (RegId × RegId)} {i : Instruction}
  {others others' : List Operand} {o place : Operand} {r reg base : RegId} {offset : Int}

theorem placeOperand_of_lookup (name : String)
    (hkind : o.kind = .virtualReg r ∨ o.kind = .parameter r) (h : assigned.lookup r = some reg) :
    placeOperand t name assigned o =
      .ok (o.setPhysical (t.registers.withWidth reg o.size)) := by
  have hlookup : assignedReg name assigned r = .ok reg := by
    rw [assignedReg, h]
    rfl
  rcases hkind with hkind | hkind <;>
  · rw [placeOperand, hkind]
    dsimp only
    rw [hlookup]
    rfl

theorem isPlace_of_resolveMemory (hplace : resolveMemory t f assigned place = .ok (base, offset)) :
    place.isPlace ∧ placeOperand t f.name assigned place = .ok place := by
  obtain ⟨kind, ty, regClass⟩ := place
  cases kind with
  | memory id n | stack slot n => exact ⟨rfl, rfl⟩
  | _ => cases hplace

/-- The place of an instruction, its last operand, becomes a base register and an offset. -/
theorem placeInstruction_of_place (hoperands : i.operands = others ++ [place])
    (hothers : others.mapM (placeOperand t f.name assigned) = .ok others')
    (hnone : ∀ o ∈ others', o.isPlace = false)
    (hplace : resolveMemory t f assigned place = .ok (base, offset)) :
    placeInstruction t f assigned i = .ok (i.withOperands
      (others' ++ [.physicalReg base t.pointerType, .immediate offset t.offsetType])) := by
  obtain ⟨hisplace, hkept⟩ := isPlace_of_resolveMemory hplace
  have hmap : i.operands.mapM (placeOperand t f.name assigned) = .ok (others' ++ [place]) := by
    rw [hoperands, List.mapM_append, hothers, ok_bind, List.mapM_cons, hkept]
    rfl
  have hindex : (i.withOperands (others' ++ [place])).memoryIndex? = some others'.length := by
    show (others' ++ [place]).findIdx? (·.isPlace) = _
    rw [List.findIdx?_append, List.findIdx?_eq_none_iff.mpr hnone]
    simp [List.findIdx?_cons, hisplace]
  have hat : (i.withOperands (others' ++ [place])).operand? others'.length = some place :=
    List.getElem?_concat_length
  rw [placeInstruction, hmap, ok_bind]
  dsimp only
  rw [hindex]
  dsimp only
  rw [hat]
  dsimp only
  rw [hplace, ok_bind]
  show Except.ok _ = _
  simp [Instruction.withOperands, List.eraseIdx_append_of_length_le]

theorem placeInstruction_of_none (hothers : i.operands.mapM (placeOperand t f.name assigned) =
      .ok others') (hnone : ∀ o ∈ others', o.isPlace = false) :
    placeInstruction t f assigned i = .ok (i.withOperands others') := by
  have hindex : (i.withOperands others').memoryIndex? = none :=
    List.findIdx?_eq_none_iff.mpr hnone
  rw [placeInstruction, hothers, ok_bind]
  dsimp only
  rw [hindex]
  rfl

end Machine.Function

namespace Target.AArch64

variable {i : Instruction} {dest loaded : Operand} {rd rl base : RegId} {offset : Int}

/-! ## Selection -/

theorem IsGeneralPurpose.isFloat {reg : RegId} (h : IsGeneralPurpose reg) :
    registers.isFloat reg = false := by
  have hfile : ∀ reg < s 0, registers.isFloat reg = false := by decide +kernel
  exact hfile reg h

theorem IsPlaced.isFloatReg {o : Operand} {reg : RegId} (h : IsPlaced o reg) :
    isFloatReg registers o = false := by
  rw [AArch64.isFloatReg, Operand.reg?, h.kind]
  exact h.general.isFloat

theorem takenBits_zext (source dest : Nat) :
    takenBits .zext source dest = if dest ≤ source then dest else unitBits source :=
  if_congr (or_iff_right (by decide)) rfl rfl

def loadForm (i : Instruction) (loaded : Operand) : Instruction :=
  widenRegisters (i.setOpcode (loadOp loaded.size false).opcode)

theorem select_load {site : Site} {rest : List Operand}
    (hoperands : site.instruction.operands = loaded :: rest) (hloaded : IsPlaced loaded rl) :
    aarch64.select site .load = .ok ⟨loadForm site.instruction loaded, []⟩ := by
  have hdest : site.operand 0 = .ok loaded := Site.operand_eq_ok (by rw [hoperands]; rfl)
  show (selectLoad registers site >>= _) = _
  rw [selectLoad, hdest, ok_bind, hloaded.isFloatReg]
  rfl

def zextLoadForm (i : Instruction) (bits : Nat) (rd : RegId) : Instruction :=
  widenRegisters (((i.eraseOperand 1).setOpcode (loadOp bits false).opcode).modifyOperand 0
    (narrowTo32 registers rd))

theorem selectsTo_zextLoadForm {rest : List Operand} {ty : LowType} {bits : Nat}
    (hop : i.opcode = .generic .zextLoad)
    (hoperands : i.operands = dest :: .immediate bits ty :: rest) (hdest : IsPlaced dest rd)
    (hbits : bits < 2 ^ 32) : Function.SelectsTo aarch64 [i] [zextLoadForm i bits rd] := by
  refine .of_select hop (r := ⟨zextLoadForm i bits rd, []⟩) (fun f b k => ?_)
    (Op.isSelected_opcode _)
  let site : Site := { function := f, block := b, index := k, instruction := i }
  have hoperand : ∀ k o, (dest :: .immediate bits ty :: rest)[k]? = some o →
      site.operand k = .ok o := fun k o ho => Site.operand_eq_ok (hoperands ▸ ho)
  have hreg : dest.reg? = some rd := by rw [Operand.reg?, hdest.kind]
  have hlow : Word.low 32 bits = bits := by
    rw [Word.low, ← Int.natCast_emod, Int.toNat_natCast]
    exact Nat.mod_eq_of_lt hbits
  show (selectZextLoad registers site >>= _) = _
  rw [selectZextLoad, hoperand 0 dest rfl, ok_bind, hoperand 1 _ rfl, ok_bind, hreg]
  show Except.ok (Replacement.mk (widenRegisters (((i.eraseOperand 1).setOpcode
    (loadOp (Word.low 32 bits) false).opcode).modifyOperand 0 (narrowTo32 registers rd))) []) = _
  rw [hlow]
  rfl

/-! ## What loads leave -/

/-- How many bits a load takes from memory. -/
def loadedBits (bits : Nat) : Nat := if bits ≤ 32 then unitBits bits else 64

theorem accessBits_loadOp_register (bits : Nat) :
    (loadOp bits false).accessBits (registerWidth bits) = loadedBits bits ∧
      (loadOp bits false).accessBits 32 = unitBits bits := by
  rw [loadOp, if_neg Bool.false_ne_true, loadedBits, registerWidth, unitBits]
  split_ifs <;> first | exact ⟨rfl, rfl⟩ | omega

theorem unitBits_le (bits : Nat) : unitBits bits ≤ 32 ∧ 8 ∣ unitBits bits := by
  rw [unitBits]
  split_ifs <;> decide

theorem loadedBits_le (bits : Nat) : loadedBits bits ≤ 64 ∧ 8 ∣ loadedBits bits := by
  rw [loadedBits]
  split_ifs
  · exact ⟨(unitBits_le bits).1.trans (by decide), (unitBits_le bits).2⟩
  · decide

theorem narrowSource_eq_self_of_load {native : Op} (hop : i.opcode = native.opcode)
    (hrole : native.role = .load) : narrowSource registers i = i := by
  refine narrowSource_eq_self ?_ ?_ <;> rw [hop] <;> cases native <;>
    first | decide | cases hrole

namespace Processor

/-- The 64 bits at an address in memory. -/
def wordAt (s : Processor) (base : RegId) (offset : Int) : BitVec 64 :=
  s.memory.loadBits (s.address base offset) 64

theorem setWidth_wordAt (s : Processor) {bits : Nat} (h : bits ≤ 64) (hbytes : 8 ∣ bits) :
    (s.wordAt base offset).setWidth bits = s.memory.loadBits (s.address base offset) bits :=
  s.memory.setWidth_loadBits _ h hbytes

variable {b o : Operand} (hb : b.kind = .physicalReg base) (ho : o.kind = .immediate offset)
  (hbase : widthOf base = 64) (s : Processor)

include hb ho hbase

theorem step_loadForm (hoperands : i.operands = [loaded, b, o]) (hloaded : IsPlaced loaded rl) :
    step (narrowSource AArch64.registers (loadForm i loaded)) s = some (s.write rl
      (((s.wordAt base offset).setWidth (loadedBits loaded.size)).setWidth _)) := by
  have hkinds : (loadForm i loaded).operands.map (·.kind) =
      [.physicalReg rl, .physicalReg base, .immediate offset] := by
    rw [loadForm, Function.map_kind_widenRegisters]
    show i.operands.map (·.kind) = _
    rw [hoperands, ← hloaded.kind, ← hb, ← ho]
    rfl
  have haccess : (loadOp loaded.size false).accessBits (widthOf rl) = loadedBits loaded.size := by
    rw [hloaded.width]
    exact (accessBits_loadOp_register _).1
  have hwidth : (loadOp loaded.size false).accessBits (widthOf rl) = widthOf rl ∨
      widthOf rl = 32 := by
    rw [haccess, hloaded.width, registerWidth, loadedBits]
    split_ifs <;> simp
  obtain ⟨hle, hbytes⟩ := loadedBits_le loaded.size
  rw [narrowSource_eq_self_of_load rfl (role_loadOp _ _),
    step_load rfl (role_loadOp _ _) hkinds hwidth hbase, haccess, setWidth_wordAt s hle hbytes]

theorem leaves_zextLoadForm {c : Operand} {bits : Nat} (hoperands : i.operands = [dest, c, b, o])
    (hdest : IsPlaced dest rd) (hsize : dest.size ≤ 64) (word : BitVec dest.size) :
    Leaves (narrowSource AArch64.registers (zextLoadForm i bits rd)) s rd word ↔
      ((s.wordAt base offset).setWidth (unitBits bits)).setWidth dest.size = word := by
  have hkinds : (zextLoadForm i bits rd).operands.map (·.kind) =
      [.physicalReg (AArch64.registers.withWidth rd 32), .physicalReg base, .immediate offset] := by
    rw [zextLoadForm, Function.map_kind_widenRegisters]
    show ((i.operands.eraseIdx 1).modify 0 _).map (·.kind) = _
    rw [hoperands, ← hb, ← ho]
    rfl
  have hview : widthOf (AArch64.registers.withWidth rd 32) = 32 :=
    hdest.general.widthOf_withWidth 32
  have haccess : (loadOp bits false).accessBits
      (widthOf (AArch64.registers.withWidth rd 32)) = unitBits bits := by
    rw [hview]
    exact (accessBits_loadOp_register bits).2
  have hroot : AArch64.registers.root (AArch64.registers.withWidth rd 32) =
      AArch64.registers.root rd := Arch.root_withWidth .aarch64 rd 32
  obtain ⟨hle, hbytes⟩ := unitBits_le bits
  have hchain : ¬(32 < unitBits bits ∧ 32 < dest.size) := fun h => Nat.not_lt.mpr hle h.1
  have hstep := step_load (i := zextLoadForm i bits rd) rfl (role_loadOp bits false) hkinds
    (.inr hview) hbase s
  rw [haccess, ← setWidth_wordAt s (hle.trans (by decide)) hbytes] at hstep
  rw [narrowSource_eq_self_of_load rfl (role_loadOp bits false),
    leaves_iff hstep hroot (hdest.size_le hsize), hview, BitVec.setWidth_setWidth hchain]

theorem run_loadForm_iff {zext : Instruction} {source : Operand}
    (hoperands : i.operands = [loaded, b, o]) (hloaded : IsPlaced loaded rl)
    (hzext : zext.operands = [dest, source]) (hdest : IsPlaced dest rd)
    (hsource : IsPlaced source rl) (hwidth : source.size = loaded.size)
    (hloadedBits : loaded.size ≤ 64) (hpos : 0 < dest.size) (hdestBits : dest.size ≤ 64)
    (word : BitVec dest.size) :
    (∃ s', run ([loadForm i loaded, widenRegisters (conversionForm zext .zext dest source rd)].map
        (narrowSource AArch64.registers)) s = some s' ∧ (s'.read rd).setWidth dest.size = word) ↔
      ((s.wordAt base offset).setWidth (takenBits .zext loaded.size dest.size)).setWidth dest.size =
        word := by
  have hstep := step_loadForm hb ho hbase s hoperands hloaded
  -- what the extension takes is in the register, and was loaded
  have htaken : takenBits .zext loaded.size dest.size ≤ widthOf rl ∧
      takenBits .zext loaded.size dest.size ≤ loadedBits loaded.size := by
    rw [hloaded.width, takenBits_zext, loadedBits, registerWidth, unitBits]
    split_ifs <;> omega
  rw [List.map_cons, List.map_cons, List.map_nil, run_cons, hstep, Option.bind_some, run_singleton]
  have hconversion : GenericOp.zext.isWidthConversion := rfl
  have hleaves := leaves_conversion hzext hdest hsource hconversion hpos (hwidth ▸ hloadedBits)
    hdestBits (s.write rl (((s.wordAt base offset).setWidth (loadedBits loaded.size)).setWidth _))
    word
  rw [hwidth, read_write, BitVec.setWidth_setWidth_of_le _ htaken.1,
    BitVec.setWidth_setWidth_of_le _ htaken.2] at hleaves
  exact hleaves.trans (and_iff_right trivial)

end Processor

/-- The bits that the extension takes and the ones that the extending load takes make no difference
but above 32 bits. -/
theorem setWidth_takenBits_iff {loaded dest : Nat} (hpos : 0 < dest) (hloaded : loaded ≤ 64)
    (X : BitVec 64) :
    (X.setWidth (takenBits .zext loaded dest)).setWidth dest =
        (X.setWidth (unitBits loaded)).setWidth dest ↔
      (dest ≤ loaded → ∀ k, 32 ≤ k → k < dest → X.getLsbD k = false) := by
  have hunit : 0 < unitBits loaded ∧ unitBits loaded ≤ 32 ∧
      (unitBits loaded = 32 ∨ loaded ≤ unitBits loaded) := by
    rw [unitBits]
    split_ifs <;> omega
  refine (GenericOp.zext.convert_eq_iff X (takenBits_pos hpos) hunit.1).trans ?_
  rw [takenBits_zext]
  split_ifs with hle
  · refine ⟨fun h _ k hk hk' => h k (by omega) (by omega), fun h k hk hk' => ?_⟩
    exact h hle k (by omega) (by omega)
  · exact iff_of_true (fun k hk hk' => by omega) fun h => absurd h hle

/-! ## Folding -/

/-- An operand is placed into a view of a general-purpose register that fits it. -/
structure HasHome (name : String) (assigned : List (RegId × RegId)) (o : Operand) (reg : RegId) :
    Prop where
  placed : Function.placeOperand aarch64 name assigned o = .ok (o.setPhysical reg)
  general : IsGeneralPurpose reg
  width : widthOf reg = registerWidth o.size

namespace HasHome

variable {name : String} {assigned : List (RegId × RegId)} {o o' : Operand} {reg r : RegId}

theorem isPlaced (h : HasHome name assigned o reg) : IsPlaced (o.setPhysical reg) reg :=
  ⟨rfl, h.general, h.width⟩

theorem of_lookup (hkind : o.kind = .virtualReg r ∨ o.kind = .parameter r)
    (hassigned : assigned.lookup r = some reg) (hreg : IsGeneralPurpose reg) :
    HasHome name assigned o (registers.withWidth reg o.size) :=
  ⟨Function.placeOperand_of_lookup name hkind hassigned, hreg.withWidth o.size,
    hreg.widthOf_withWidth o.size⟩

/-- Operands of one width that name one id share their home. -/
theorem of_same (h : HasHome name assigned o reg) (ho : o.unallocated? = some r)
    (hkind : o'.kind = .virtualReg r) (hsize : o'.size = o.size) :
    HasHome name assigned o' reg := by
  have hplaced := h.placed
  refine ⟨?_, h.general, by rw [hsize, h.width]⟩
  rw [Function.placeOperand, hkind]
  dsimp only
  obtain ⟨kind, ty, regClass⟩ := o
  cases kind with
  | virtualReg id | parameter id =>
    cases ho
    obtain ⟨home, hhome, hplaced⟩ := bind_eq_ok.mp hplaced
    injection hplaced with hplaced
    injection hplaced with hplaced
    injection hplaced with hplaced
    rw [hhome, ok_bind, hsize, ← hplaced]
    rfl
  | memory id n => cases hplaced
  | _ => cases ho

end HasHome

theorem exists_folded {f : Function} {b k : Nat} {load zext : Instruction} {dest loaded : Operand}
    {rest extra : List Operand} (hpos : 0 < k) (hload : f.instruction? b (k - 1) = some load)
    (hzext : f.instruction? b k = some zext) (hloads : load.operands = loaded :: rest)
    (hzexts : zext.operands = dest :: extra) :
    ∃ g, foldZextIntoLoad f b k zext = .ok g ∧ g.name = f.name ∧ g.frame = f.frame ∧
      g.instruction? b (k - 1) = some (extendingLoad load dest loaded rest) := by
  obtain ⟨block, before, after, hblock, hcode, hlength⟩ :=
    Function.exists_split₂ hload (j := zext) (by rwa [Nat.sub_add_cancel hpos])
  have hreplaces := Function.Replaces.splice hblock [load, zext]
    [extendingLoad load dest loaded rest] hcode
  rw [hlength] at hreplaces
  refine ⟨_, ?_, hreplaces.name, hreplaces.frame, hreplaces.instruction?_new Nat.one_pos⟩
  rw [foldZextIntoLoad, if_neg (by omega), hload]
  dsimp only
  rw [hzexts, hloads]
  rfl

/-- A load over a base register and an offset. -/
def placedLoad (load : Instruction) (loaded : Operand) (rl base : RegId) (offset : Int) :
    Instruction :=
  load.withOperands [loaded.setPhysical rl, .physicalReg base aarch64.pointerType,
    .immediate offset aarch64.offsetType]

def placedZext (zext : Instruction) (dest source : Operand) (rd rl : RegId) : Instruction :=
  zext.withOperands [dest.setPhysical rd, source.setPhysical rl]

/-- A load that extends what it loads, over a base register and an offset. -/
def placedFolded (load : Instruction) (dest loaded : Operand) (rd base : RegId) (offset : Int) :
    Instruction :=
  (extendingLoad load dest loaded []).withOperands [dest.setPhysical rd,
    .immediate loaded.size loaded.ty, .physicalReg base aarch64.pointerType,
    .immediate offset aarch64.offsetType]

section Placed

variable {f g : Function} {load zext : Instruction} {dest source loaded place : Operand}
  {assigned : List (RegId × RegId)}

theorem placeInstruction_load (hloads : load.operands = [loaded, place])
    (hloaded : HasHome f.name assigned loaded rl)
    (hplace : f.resolveMemory aarch64 assigned place = .ok (base, offset)) :
    f.placeInstruction aarch64 assigned load = .ok (placedLoad load loaded rl base offset) := by
  have hplaced : [loaded].mapM (Function.placeOperand aarch64 f.name assigned) =
      .ok [loaded.setPhysical rl] := by
    rw [List.mapM_cons, hloaded.placed]
    rfl
  exact Function.placeInstruction_of_place hloads hplaced (List.forall_mem_singleton.mpr rfl) hplace

theorem placeInstruction_zext (hzexts : zext.operands = [dest, source])
    (hdest : HasHome f.name assigned dest rd) (hsource : HasHome f.name assigned source rl) :
    f.placeInstruction aarch64 assigned zext = .ok (placedZext zext dest source rd rl) := by
  have hplaced : zext.operands.mapM (Function.placeOperand aarch64 f.name assigned) =
      .ok [dest.setPhysical rd, source.setPhysical rl] := by
    rw [hzexts, List.mapM_cons, hdest.placed, ok_bind, List.mapM_cons, hsource.placed]
    rfl
  exact Function.placeInstruction_of_none hplaced
    (List.forall_mem_cons.mpr ⟨rfl, List.forall_mem_singleton.mpr rfl⟩)

theorem placeInstruction_extendingLoad (hdest : HasHome g.name assigned dest rd)
    (hplace : g.resolveMemory aarch64 assigned place = .ok (base, offset)) :
    g.placeInstruction aarch64 assigned (extendingLoad load dest loaded [place]) =
      .ok (placedFolded load dest loaded rd base offset) := by
  have hoperands : (extendingLoad load dest loaded [place]).operands =
      [dest, .immediate loaded.size loaded.ty] ++ [place] := rfl
  have hplaced : [dest, .immediate loaded.size loaded.ty].mapM
      (Function.placeOperand aarch64 g.name assigned) =
        .ok [dest.setPhysical rd, .immediate loaded.size loaded.ty] := by
    rw [List.mapM_cons, hdest.placed]
    rfl
  exact Function.placeInstruction_of_place hoperands hplaced
    (List.forall_mem_cons.mpr ⟨rfl, List.forall_mem_singleton.mpr rfl⟩) hplace

end Placed

/-- A load, and right behind it a zero extension of what it loads that can be folded into it, with
the registers assigned to their operands. -/
structure FoldableLoad (f : Function) (b k : Nat) (assigned : List (RegId × RegId))
    (load zext : Instruction) (dest source loaded place : Operand) (rd rl base : RegId)
    (offset : Int) : Prop where
  loadAt : f.instruction? b (k - 1) = some load
  zextAt : f.instruction? b k = some zext
  isZext : zext.opcode = .generic .zext
  loadOperands : load.operands = [loaded, place]
  zextOperands : zext.operands = [dest, source]
  foldable : isFoldableZext f b k
  size_eq : source.size = loaded.size
  loaded_le : loaded.size ≤ 64
  dest_pos : 0 < dest.size
  dest_le : dest.size ≤ 64
  destHome : HasHome f.name assigned dest rd
  loadedHome : HasHome f.name assigned loaded rl
  resolves : f.resolveMemory aarch64 assigned place = .ok (base, offset)
  base_eq : widthOf base = 64

/-- The code of a load and an extension, over the assigned registers. -/
def UnfoldedCode (f : Function) (assigned : List (RegId × RegId)) (load zext : Instruction)
    (code : List Instruction) : Prop :=
  ∃ load' zext', f.placeInstruction aarch64 assigned load = .ok load' ∧
    f.placeInstruction aarch64 assigned zext = .ok zext' ∧
    Function.SelectsTo aarch64 [load', zext'] code

/-- The code of the load that an extension is folded into, over the assigned registers. -/
def FoldedCode (f : Function) (b k : Nat) (assigned : List (RegId × RegId)) (zext : Instruction)
    (code : List Instruction) : Prop :=
  ∃ g folded folded', foldZextIntoLoad f b k zext = .ok g ∧
    g.instruction? b (k - 1) = some folded ∧
    g.placeInstruction aarch64 assigned folded = .ok folded' ∧
    Function.SelectsTo aarch64 [folded'] code

namespace FoldableLoad

variable {f : Function} {b k : Nat} {assigned : List (RegId × RegId)} {load zext : Instruction}
  {dest source loaded place : Operand}
  (h : FoldableLoad f b k assigned load zext dest source loaded place rd rl base offset)

include h

theorem isLoad : 0 < k ∧ load.opcode = .generic .load ∧
    ∃ r, loaded.unallocated? = some r ∧ source.kind = .virtualReg r := by
  obtain ⟨zext', load', source', r, hpos, hzext, hload, hop, hdef, hsource, hkind, -⟩ :=
    isFoldableZext_iff.mp h.foldable
  cases h.zextAt.symm.trans hzext
  cases h.loadAt.symm.trans hload
  rw [Instruction.operand?, h.zextOperands] at hsource
  cases hsource
  obtain ⟨o, ho, hr⟩ := Option.bind_eq_some_iff.mp hdef
  rw [Instruction.def?, h.loadOperands] at ho
  obtain ⟨-, ho⟩ := Option.ite_none_right_eq_some.mp ho
  cases ho
  exact ⟨hpos, hop, r, hr, hkind⟩

theorem exists_unfoldedCode : ∃ code, UnfoldedCode f assigned load zext code ∧
    ∀ (s : Processor) (word : BitVec dest.size),
      (∃ s', Processor.run (code.map (narrowSource registers)) s = some s' ∧
        (s'.read rd).setWidth dest.size = word) ↔
      ((s.wordAt base offset).setWidth (takenBits .zext loaded.size dest.size)).setWidth dest.size =
        word := by
  obtain ⟨-, hload, r, hr, hkind⟩ := h.isLoad
  have hsource := h.loadedHome.of_same hr hkind h.size_eq
  let load' := placedLoad load loaded rl base offset
  let zext' := placedZext zext dest source rd rl
  have hzext := selectsTo_conversionForm (show zext'.opcode = .generic .zext from h.isZext)
    (show GenericOp.zext.isWidthConversion from rfl) rfl h.destHome.isPlaced.kind
  have hpair := hzext.cons (j := loadForm load' (loaded.setPhysical rl))
    (show load'.opcode = .generic .load from hload)
    (fun _ _ _ => select_load rfl h.loadedHome.isPlaced) (Op.isSelected_opcode _)
  refine ⟨_, ⟨load', zext', placeInstruction_load h.loadOperands h.loadedHome h.resolves,
    placeInstruction_zext h.zextOperands h.destHome hsource, hpair⟩, fun s word => ?_⟩
  exact Processor.run_loadForm_iff rfl rfl h.base_eq s rfl h.loadedHome.isPlaced rfl
    h.destHome.isPlaced hsource.isPlaced h.size_eq h.loaded_le h.dest_pos h.dest_le word

theorem exists_foldedCode : ∃ code, FoldedCode f b k assigned zext code ∧
    ∀ (s : Processor) (word : BitVec dest.size),
      (∃ s', Processor.run (code.map (narrowSource registers)) s = some s' ∧
        (s'.read rd).setWidth dest.size = word) ↔
      ((s.wordAt base offset).setWidth (unitBits loaded.size)).setWidth dest.size = word := by
  obtain ⟨g, hfold, hname, hframe, hfolded⟩ :=
    exists_folded h.isLoad.1 h.loadAt h.zextAt h.loadOperands h.zextOperands
  have hplace : g.resolveMemory aarch64 assigned place = .ok (base, offset) := by
    rw [← h.resolves, Function.resolveMemory, Function.resolveMemory, hname, hframe]
  have hdest : HasHome g.name assigned dest rd := hname ▸ h.destHome
  let folded' := placedFolded load dest loaded rd base offset
  have hsingle := selectsTo_zextLoadForm (show folded'.opcode = .generic .zextLoad from rfl) rfl
    h.destHome.isPlaced (Nat.lt_of_le_of_lt h.loaded_le (by decide))
  refine ⟨_, ⟨g, _, folded', hfold, hfolded, placeInstruction_extendingLoad hdest hplace, hsingle⟩,
    fun s word => ?_⟩
  rw [List.map_singleton, Processor.run_singleton]
  exact Processor.leaves_zextLoadForm rfl rfl h.base_eq s rfl h.destHome.isPlaced h.dest_le word

end FoldableLoad

/-- Two runs leave one word exactly if the words that they leave are one. -/
theorem exists_agree_iff {bits : Nat} {a b : Option Processor} {low : Processor → BitVec bits}
    {u v : BitVec bits} (ha : ∀ word, (∃ s, a = some s ∧ low s = word) ↔ u = word)
    (hb : ∀ word, (∃ s, b = some s ∧ low s = word) ↔ v = word) :
    (∃ s₁ s₂, a = some s₁ ∧ b = some s₂ ∧ low s₁ = low s₂) ↔ u = v := by
  constructor
  · rintro ⟨s₁, s₂, h₁, h₂, h⟩
    rw [(ha _).mp ⟨s₁, h₁, rfl⟩, (hb _).mp ⟨s₂, h₂, rfl⟩, h]
  · intro h
    obtain ⟨s₁, h₁, hu⟩ := (ha u).mpr rfl
    obtain ⟨s₂, h₂, hv⟩ := (hb v).mpr rfl
    exact ⟨s₁, s₂, h₁, h₂, by rw [hu, hv, h]⟩

/-- **When folding an extension into a load changes nothing.**  A load and a zero extension of what
it loads are turned into one load.  Once registers are assigned, the code of the one leaves the same
value in the destination of the extension as the code of the two, unless the value is not made wider
and has ones above its low 32 bits, which the one load leaves out. -/
theorem folded_iff {f : Function} {b k : Nat} {assigned : List (RegId × RegId)}
    {load zext : Instruction} {dest source loaded place : Operand} {rd rl base : RegId}
    {offset : Int}
    (h : FoldableLoad f b k assigned load zext dest source loaded place rd rl base offset) :
    ∃ pair single, UnfoldedCode f assigned load zext pair ∧ FoldedCode f b k assigned zext single ∧
      ∀ s : Processor,
        (∃ s₁ s₂, Processor.run (pair.map (narrowSource registers)) s = some s₁ ∧
          Processor.run (single.map (narrowSource registers)) s = some s₂ ∧
          (s₁.read rd).setWidth dest.size = (s₂.read rd).setWidth dest.size) ↔
        (dest.size ≤ loaded.size → ∀ n, 32 ≤ n → n < dest.size →
          (s.wordAt base offset).getLsbD n = false) := by
  obtain ⟨pair, hpair, hleaves⟩ := h.exists_unfoldedCode
  obtain ⟨single, hsingle, hleaves'⟩ := h.exists_foldedCode
  refine ⟨pair, single, hpair, hsingle, fun s => ?_⟩
  rw [← setWidth_takenBits_iff h.dest_pos h.loaded_le]
  exact exists_agree_iff (hleaves s) (hleaves' s)

/-! ### Examples of widths -/

def loadOf (bits : Nat) : Instruction :=
  .generic .load [.virtualReg 0 (.integer bits), .memory 2 0 (.integer bits)]

def extensionOf (loaded dest : Nat) : Instruction :=
  .generic .zext [.virtualReg 1 (.integer dest), .virtualReg 0 (.integer loaded)]

/-- A load of some bits, and an extension of them. -/
def extending (loaded dest : Nat) : Function where
  name := "extending"
  blocks := [⟨"entry", [loadOf loaded, extensionOf loaded dest]⟩]

/-- The result gets `x0`, what is loaded `x1`, and the address `x2`. -/
def extendingHomes : List (RegId × RegId) := [(0, x 1), (1, x 0), (2, x 2)]

theorem foldableLoad_extending {loaded : Nat} (hfoldable : isFoldableZext (extending loaded 64) 0 1)
    (hloaded : loaded ≤ 64) :
    FoldableLoad (extending loaded 64) 0 1 extendingHomes (loadOf loaded) (extensionOf loaded 64)
      (.virtualReg 1 (.integer 64)) (.virtualReg 0 (.integer loaded))
      (.virtualReg 0 (.integer loaded)) (.memory 2 0 (.integer loaded)) (x 0)
      (registers.withWidth (x 1) loaded) (x 2) 0 where
  loadAt := rfl
  zextAt := rfl
  isZext := rfl
  loadOperands := rfl
  zextOperands := rfl
  foldable := hfoldable
  size_eq := rfl
  loaded_le := hloaded
  dest_pos := by decide
  dest_le := Nat.le_refl 64
  destHome := by
    have hwhole : registers.withWidth (x 0) 64 = x 0 := by decide +kernel
    have hhome : HasHome (extending loaded 64).name extendingHomes (.virtualReg 1 (.integer 64))
        (registers.withWidth (x 0) 64) := .of_lookup (.inl rfl) rfl (by decide)
    rwa [hwhole] at hhome
  loadedHome := .of_lookup (.inl rfl) rfl (by decide)
  resolves := by
    show Except.ok (registers.withWidth (x 2) 64, (0 : Int)) = _
    rw [IsGeneralPurpose.withWidth_eq (by decide)]
    rfl
  base_eq := by decide +kernel

/-- A byte that is made a word. -/
theorem folded_iff_byte : ∃ pair single,
    UnfoldedCode (extending 8 64) extendingHomes (loadOf 8) (extensionOf 8 64) pair ∧
    FoldedCode (extending 8 64) 0 1 extendingHomes (extensionOf 8 64) single ∧
    ∀ s : Processor, ∃ s₁ s₂, Processor.run (pair.map (narrowSource registers)) s = some s₁ ∧
      Processor.run (single.map (narrowSource registers)) s = some s₂ ∧
      (s₁.read (x 0)).setWidth 64 = (s₂.read (x 0)).setWidth 64 := by
  obtain ⟨pair, single, hpair, hsingle, hagree⟩ :=
    folded_iff (foldableLoad_extending (show isFoldableZext (extending 8 64) 0 1 by decide)
      (by decide))
  exact ⟨pair, single, hpair, hsingle,
    fun s => (hagree s).mpr fun hle => absurd hle (by decide)⟩

/-- The upper half of a word that is extended to a word is left out. -/
theorem not_folded_word : ∃ pair single,
    UnfoldedCode (extending 64 64) extendingHomes (loadOf 64) (extensionOf 64 64) pair ∧
    FoldedCode (extending 64 64) 0 1 extendingHomes (extensionOf 64 64) single ∧
    ∀ s : Processor, s.wordAt (x 2) 0 = 0x100000000#64 →
      (∃ s', Processor.run (pair.map (narrowSource registers)) s = some s' ∧
        (s'.read (x 0)).setWidth 64 = 0x100000000#64) ∧
      ∃ s', Processor.run (single.map (narrowSource registers)) s = some s' ∧
        (s'.read (x 0)).setWidth 64 = 0#64 := by
  have h := foldableLoad_extending (show isFoldableZext (extending 64 64) 0 1 by decide)
    (Nat.le_refl 64)
  obtain ⟨pair, hpair, hleaves⟩ := h.exists_unfoldedCode
  obtain ⟨single, hsingle, hleaves'⟩ := h.exists_foldedCode
  refine ⟨pair, single, hpair, hsingle, fun s hs => ⟨(hleaves s _).mpr ?_, (hleaves' s _).mpr ?_⟩⟩
  · show ((s.wordAt (x 2) 0).setWidth (takenBits .zext 64 64)).setWidth 64 = _
    rw [hs]
    decide
  · show ((s.wordAt (x 2) 0).setWidth (unitBits 64)).setWidth 64 = _
    rw [hs]
    decide

end Target.AArch64

end Retarget
