import Retarget.Proofs.Native.Conversions

/-!
# Conversions in AArch64 registers

On AArch64 there are extensions of bytes, halfwords and words only, the last to 64-bit registers.
A source of another width is extended as if it had the width of such a unit, so that the bits in
between decide (`AArch64.converts_iff`): a one-bit condition, which is zero or one in its register,
is extended with zeros as it should be, and is one instead of minus one when it is extended with its
sign.

Conversions, moves and masks become one instruction each.  What it leaves in the low bits of the
destination (`AArch64.Processor.Leaves`) is told after the touch-ups, by which a 32-bit register is
moved from the 32-bit view of its source.
-/

namespace Retarget

open Machine

namespace Target

namespace AArch64

/-! ## Placed operands -/

/-- Whether an operand is a view of a general-purpose register that fits it. -/
structure IsPlaced (o : Operand) (reg : RegId) : Prop where
  kind : o.kind = .physicalReg reg
  general : IsGeneralPurpose reg
  width : widthOf reg = registerWidth o.size

namespace IsPlaced

variable {o : Operand} {reg : RegId}

theorem size_le (h : IsPlaced o reg) (hbits : o.size ≤ 64) : o.size ≤ widthOf reg := by
  rw [h.width, registerWidth]
  split_ifs <;> omega

theorem width_eq_iff (h : IsPlaced o reg) :
    (widthOf reg = 32 ↔ o.size ≤ 32) ∧ (widthOf reg = 64 ↔ 32 < o.size) := by
  rw [h.width, registerWidth]
  split_ifs <;> omega

theorem of_home (h : IsGeneralPurpose reg) (o : Operand) :
    IsPlaced (o.setPhysical (registers.withWidth reg o.size)) (registers.withWidth reg o.size) :=
  ⟨rfl, h.withWidth o.size, h.widthOf_withWidth o.size⟩

end IsPlaced

/-- Whether there is an instruction for a conversion. -/
def HasConversion (op : GenericOp) (source dest : Nat) : Prop :=
  match op with
  | .sext => source < dest → source ≤ 16 ∨ 32 < dest
  | .trunc => dest ≤ 32 ∨ 32 < source
  | _ => True

/-- A byte, a halfword, or else a word. -/
def unitBits (bits : Nat) : Nat := if bits ≤ 8 then 8 else if bits ≤ 16 then 16 else 32

/-- How many low bits of a register the instruction for a conversion takes: all that stay, or a
unit. -/
def takenBits (op : GenericOp) (source dest : Nat) : Nat :=
  if op = .trunc ∨ dest ≤ source then dest else unitBits source

theorem takenBits_of_lt {op : GenericOp} (hop : op ≠ .trunc) {source dest : Nat}
    (hlt : source < dest) : takenBits op source dest = unitBits source := by
  refine if_neg ?_
  rintro (htrunc | hle)
  exacts [hop htrunc, Nat.not_le_of_lt hlt hle]

variable {i : Instruction} {op : GenericOp} {dest source : Operand} {rd rs : RegId}

def conversionForm (i : Instruction) (op : GenericOp) (dest source : Operand) (rd : RegId) :
    Instruction :=
  let bits := source.size
  match op with
  | .sext => i.setOpcode (if dest.size ≤ bits then Op.movR
      else if bits ≤ 8 then .sxtb else if bits ≤ 16 then .sxth else .sxtw).opcode
  | .zext =>
    if dest.size ≤ bits then i.setOpcode Op.movR.opcode
    else (i.modifyOperand 0 (narrowTo32 registers rd)).setOpcode
      (if bits ≤ 8 then Op.uxtb else if bits ≤ 16 then .uxth else .movR).opcode
  | _ =>
    if 32 ≤ dest.size then i.setOpcode Op.movR.opcode
    else (i.push (.immediate (Word.modulus dest.size - 1 : Nat) dest.ty)).setOpcode
      Op.andI.opcode

theorem select_conversion {site : Site} (hop : op.isWidthConversion)
    (hoperands : site.instruction.operands = [dest, source]) (hdest : dest.kind = .physicalReg rd) :
    aarch64.select site op =
      .ok ⟨widenRegisters (conversionForm site.instruction op dest source rd), []⟩ := by
  have hoperand : ∀ k o, [dest, source][k]? = some o → site.operand k = .ok o :=
    fun k o ho => Site.operand_eq_ok (hoperands ▸ ho)
  have hreg : dest.reg? = some rd := by rw [Operand.reg?, hdest]
  have hselect : aarch64.select site op = (do
      let form ← selectConversion registers site op
      return { form with first := widenRegisters form.first }) := by
    cases op <;> first | rfl | cases hop
  have hform : selectConversion registers site op =
      .ok ⟨conversionForm site.instruction op dest source rd, []⟩ := by
    unfold selectConversion conversionForm
    rw [hoperand 0 dest rfl, ok_bind, hoperand 1 source rfl, ok_bind]
    cases op with
    | sext => rfl
    | zext =>
      dsimp only
      rw [hreg]
      split_ifs <;> rfl
    | trunc =>
      dsimp only
      split_ifs <;> rfl
    | _ => cases hop
  rw [hselect, hform]
  rfl

theorem isSelected_conversionForm (hop : op.isWidthConversion) :
    (widenRegisters (conversionForm i op dest source rd)).isSelected := by
  show (conversionForm i op dest source rd).isSelected
  unfold conversionForm
  cases op with
  | sext | zext | trunc =>
    dsimp only
    split_ifs <;> rfl
  | _ => cases hop

theorem selectsTo_conversionForm (hop : i.opcode = .generic op)
    (hconversion : op.isWidthConversion) (hoperands : i.operands = [dest, source])
    (hdest : dest.kind = .physicalReg rd) : Function.SelectsTo aarch64 [i]
      [widenRegisters (conversionForm i op dest source rd)] :=
  .of_select hop (r := ⟨widenRegisters (conversionForm i op dest source rd), []⟩)
    (fun _ _ _ => select_conversion hconversion hoperands hdest)
    (isSelected_conversionForm hconversion)

/-! ### Touched up -/

theorem narrowSource_eq_self (hmove : i.opcode ≠ Op.movR.opcode)
    (hmask : i.opcode ≠ Op.andI.opcode) : narrowSource registers i = i := by
  rw [narrowSource, if_neg]
  simp [hmove, hmask]

theorem map_kind_narrowSource {rest : List Operand.Kind}
    (hop : i.opcode = Op.movR.opcode ∨ i.opcode = Op.andI.opcode)
    (hkinds : i.operands.map (·.kind) = .physicalReg rd :: .physicalReg rs :: rest)
    (hrd : IsGeneralPurpose rd) (hrs : IsGeneralPurpose rs) :
    (narrowSource registers i).opcode = i.opcode ∧
      (narrowSource registers i).operands.map (·.kind) = .physicalReg rd ::
        .physicalReg (if widthOf rd = 32 then registers.withWidth rs 32 else rs) :: rest := by
  obtain ⟨dest, tail, hoperands, hdest, htail⟩ := List.map_eq_cons_iff.mp hkinds
  obtain ⟨source, others, rfl, hsource, rfl⟩ := List.map_eq_cons_iff.mp htail
  have hmoves : (i.opcode == Op.movR.opcode || i.opcode == Op.andI.opcode) = true := by
    simpa using hop
  have hfirst : (i.operand? 0).any (isGeneral registers 32) = decide (widthOf rd = 32) := by
    rw [Instruction.operand?, hoperands, Bool.eq_iff_iff, decide_eq_true_iff]
    exact hrd.isGeneral_iff hdest 32
  rw [narrowSource, hmoves, Bool.true_and, hfirst]
  by_cases hnarrow : widthOf rd = 32
  · rw [if_pos (decide_eq_true hnarrow), if_pos hnarrow, Instruction.modifyOperand, hoperands]
    refine ⟨rfl, ?_⟩
    show dest.kind :: Operand.kind _ :: _ = _
    rw [hdest]
    dsimp only
    rw [hsource]
    dsimp only
    split_ifs with hwide
    · rfl
    · have hself : widthOf rs = 32 :=
        hrs.widthOf.resolve_right fun h => hwide ((hrs.isGeneral_iff hsource 64).mpr h)
      rw [hsource, hrs.withWidth_self hself]
  · rw [if_neg (by simpa using hnarrow), if_neg hnarrow]
    exact ⟨rfl, hkinds⟩

namespace Processor

/-- The bits that an instruction leaves in a register. -/
def Leaves (i : Instruction) (s : Processor) (reg : RegId) {bits : Nat} (word : BitVec bits) :
    Prop :=
  ∃ s', step i s = some s' ∧ (s'.read reg).setWidth bits = word

variable {s : Processor} {reg r : RegId} {bits : Nat}

theorem leaves_iff {value : BitVec (widthOf r)} (h : step i s = some (s.write r value))
    (hroot : AArch64.registers.root r = AArch64.registers.root reg) (hbits : bits ≤ widthOf reg)
    {word : BitVec bits} : Leaves i s reg word ↔ value.setWidth bits = word := by
  have hread : ((s.write r value).read reg).setWidth bits = value.setWidth bits := by
    rw [read_write_view hroot, BitVec.setWidth_setWidth_of_le _ hbits]
  refine ⟨?_, fun hword => ⟨_, h, hread.trans hword⟩⟩
  rintro ⟨s', hs', hword⟩
  cases h.symm.trans hs'
  exact hread.symm.trans hword

theorem not_leaves (h : step i s = none) (word : BitVec bits) : ¬Leaves i s reg word := by
  rintro ⟨s', hs', -⟩
  cases h.symm.trans hs'

theorem setWidth_read_view (hrs : IsGeneralPurpose rs) (hbits : bits ≤ 32) :
    (s.read (AArch64.registers.withWidth rs 32)).setWidth bits = (s.read rs).setWidth bits := by
  have hroot : AArch64.registers.root (AArch64.registers.withWidth rs 32) =
      AArch64.registers.root rs := Arch.root_withWidth .aarch64 rs 32
  have hwidth : bits ≤ widthOf rs := by rcases hrs.widthOf with h | h <;> omega
  rw [setWidth_read (by rw [hrs.widthOf_withWidth]; exact hbits), setWidth_read hwidth, hroot]

theorem step_narrowed_move (hop : i.opcode = Op.movR.opcode)
    (hkinds : i.operands.map (·.kind) = [.physicalReg rd, .physicalReg rs])
    (hrd : IsGeneralPurpose rd) (hrs : IsGeneralPurpose rs) (s : Processor) :
    step (narrowSource AArch64.registers i) s = if widthOf rd = 32 ∨ widthOf rs = 64 then
      some (s.write rd ((s.read rs).setWidth _)) else none := by
  obtain ⟨hop', hkinds'⟩ := map_kind_narrowSource (.inl hop) hkinds hrd hrs
  rw [step_move (hop'.trans hop) hkinds']
  rcases hrd.widthOf with hnarrow | hwide
  · have hview : widthOf (AArch64.registers.withWidth rs 32) = 32 := hrs.widthOf_withWidth 32
    rw [if_pos hnarrow, if_pos (hview.trans hnarrow.symm), if_pos (.inl hnarrow),
      setWidth_read_view hrs (Nat.le_of_eq hnarrow)]
  · have hne : widthOf rd ≠ 32 := by omega
    rw [if_neg hne]
    exact if_congr (by omega) rfl rfl

theorem leaves_move (hop : i.opcode = Op.movR.opcode)
    (hkinds : i.operands.map (·.kind) = [.physicalReg r, .physicalReg rs])
    (hr : IsGeneralPurpose r) (hrs : IsGeneralPurpose rs)
    (hroot : AArch64.registers.root r = AArch64.registers.root rd) (hbits : bits ≤ widthOf rd)
    (s : Processor) (word : BitVec bits) :
    Leaves (narrowSource AArch64.registers i) s rd word ↔
      (widthOf r = 32 ∨ widthOf rs = 64) ∧
        ((s.read rs).setWidth (widthOf r)).setWidth bits = word := by
  have hstep := step_narrowed_move hop hkinds hr hrs s
  split at hstep
  · next hmoves => rw [leaves_iff hstep hroot hbits, and_iff_right hmoves]
  · next hnone => exact iff_of_false (not_leaves hstep word) fun h => hnone h.1

theorem exists_extension_signed (source : Nat) : ∃ widths,
    (if source ≤ 8 then Op.sxtb else if source ≤ 16 then .sxth else .sxtw).extension? =
      some ⟨unitBits source, true, widths⟩ ∧
    ∀ bits, registerWidth bits ∈ widths ↔ source ≤ 16 ∨ 32 < bits := by
  have hall : ∀ bits, registerWidth bits ∈ [32, 64] := fun bits => by
    rw [registerWidth]
    split_ifs <;> simp
  rw [unitBits]
  split_ifs with hbyte hhalf
  · exact ⟨_, rfl, fun bits => iff_of_true (hall bits) (.inl (by omega))⟩
  · exact ⟨_, rfl, fun bits => iff_of_true (hall bits) (.inl hhalf)⟩
  · refine ⟨_, rfl, fun bits => ?_⟩
    rw [List.mem_singleton, registerWidth]
    split_ifs <;> omega

theorem extension_unsigned {source : Nat} (h : source ≤ 16) :
    (if source ≤ 8 then Op.uxtb else if source ≤ 16 then .uxth else .movR).extension? =
      some ⟨unitBits source, false, [32]⟩ ∧ unitBits source ≤ 16 := by
  rw [unitBits]
  split_ifs
  exacts [⟨rfl, by decide⟩, ⟨rfl, Nat.le_refl 16⟩]

theorem leaves_extend {native : Op} {e : Extension} (hop : i.opcode = native.opcode)
    (he : native.extension? = some e)
    (hkinds : i.operands.map (·.kind) = [.physicalReg r, .physicalReg rs])
    (hroot : AArch64.registers.root r = AArch64.registers.root rd) (hbits : bits ≤ widthOf rd)
    (s : Processor) (word : BitVec bits) :
    Leaves (narrowSource AArch64.registers i) s rd word ↔
      widthOf r ∈ e.widths ∧ (e.word (s.read rs) (widthOf r)).setWidth bits = word := by
  have hself : narrowSource AArch64.registers i = i := by
    refine narrowSource_eq_self ?_ ?_ <;> rw [hop] <;> cases native <;> first | decide | cases he
  have hstep := step_extend hop he hkinds s
  rw [hself]
  split at hstep
  · next hwidth => rw [leaves_iff hstep hroot hbits, and_iff_right hwidth]
  · next hnone => exact iff_of_false (not_leaves hstep word) fun h => hnone h.1

section Placed

variable (hoperands : i.operands = [dest, source]) (hdest : IsPlaced dest rd)
  (hsource : IsPlaced source rs)

include hoperands hdest hsource

theorem kinds_of_isPlaced (opcode : Opcode) :
    (widenRegisters (i.setOpcode opcode)).operands.map (·.kind) =
      [.physicalReg rd, .physicalReg rs] := by
  rw [Function.map_kind_widenRegisters]
  show i.operands.map (·.kind) = _
  rw [hoperands, ← hdest.kind, ← hsource.kind]
  rfl

theorem leaves_kept (hbits : dest.size ≤ 64) (s : Processor) (word : BitVec dest.size) :
    Leaves (narrowSource AArch64.registers (widenRegisters (i.setOpcode Op.movR.opcode))) s rd
        word ↔ (dest.size ≤ 32 ∨ 32 < source.size) ∧ (s.read rs).setWidth dest.size = word := by
  have hfits := hdest.size_le hbits
  have hkinds := kinds_of_isPlaced hoperands hdest hsource Op.movR.opcode
  rw [leaves_move (by rfl) hkinds hdest.general hsource.general rfl hfits,
    BitVec.setWidth_setWidth_of_le _ hfits, hdest.width_eq_iff.1, hsource.width_eq_iff.2]

theorem leaves_signed (hbits : dest.size ≤ 64) (hlt : source.size < dest.size) (s : Processor)
    (word : BitVec dest.size) :
    Leaves (narrowSource AArch64.registers (widenRegisters (i.setOpcode (if source.size ≤ 8 then
      Op.sxtb else if source.size ≤ 16 then .sxth else .sxtw).opcode))) s rd word ↔
      (source.size ≤ 16 ∨ 32 < dest.size) ∧
        ((s.read rs).setWidth (takenBits .sext source.size dest.size)).signExtend dest.size =
          word := by
  obtain ⟨widths, hextension, hwidths⟩ := exists_extension_signed source.size
  have hkinds := kinds_of_isPlaced hoperands hdest hsource
  have hfits := hdest.size_le hbits
  rw [takenBits_of_lt (by decide) hlt, leaves_extend (by rfl) hextension (hkinds _) rfl hfits,
    Extension.word, if_pos rfl, Word.setWidth_signExtend _ hfits, hdest.width, hwidths]

theorem leaves_unsigned (hbits : dest.size ≤ 64) (s : Processor) (word : BitVec dest.size) :
    Leaves (narrowSource AArch64.registers (widenRegisters
      ((i.modifyOperand 0 (narrowTo32 AArch64.registers rd)).setOpcode (if source.size ≤ 8 then
        Op.uxtb else if source.size ≤ 16 then .uxth else .movR).opcode))) s rd word ↔
      ((s.read rs).setWidth (unitBits source.size)).setWidth dest.size = word := by
  have hkinds : ∀ opcode, (widenRegisters ((i.modifyOperand 0
      (narrowTo32 AArch64.registers rd)).setOpcode opcode)).operands.map (·.kind) =
        [.physicalReg (AArch64.registers.withWidth rd 32), .physicalReg rs] := by
    intro opcode
    rw [Function.map_kind_widenRegisters]
    show (i.operands.modify 0 _).map (·.kind) = _
    rw [hoperands, ← hsource.kind]
    rfl
  have hfits := hdest.size_le hbits
  have hroot : AArch64.registers.root (AArch64.registers.withWidth rd 32) =
      AArch64.registers.root rd := Arch.root_withWidth .aarch64 rd 32
  have hview : widthOf (AArch64.registers.withWidth rd 32) = 32 :=
    hdest.general.widthOf_withWidth 32
  by_cases hunit : source.size ≤ 16
  · obtain ⟨hextension, hnative⟩ := extension_unsigned hunit
    have hchain : ¬(32 < unitBits source.size ∧ 32 < dest.size) := by omega
    rw [leaves_extend (by rfl) hextension (hkinds _) hroot hfits,
      and_iff_right (List.mem_singleton.mpr hview), Extension.word, if_neg Bool.false_ne_true,
      hview, BitVec.setWidth_setWidth hchain]
  · have hbyte : ¬source.size ≤ 8 := by omega
    rw [unitBits, if_neg hbyte, if_neg hbyte, if_neg hunit, if_neg hunit,
      leaves_move (by rfl) (hkinds _) (hdest.general.withWidth 32) hsource.general hroot hfits,
      and_iff_right (.inl hview), hview]

theorem leaves_masked (hpos : 0 < dest.size) (hlt : dest.size < 32) (s : Processor)
    (word : BitVec dest.size) :
    Leaves (narrowSource AArch64.registers (widenRegisters ((i.push
      (.immediate (Word.modulus dest.size - 1 : Nat) dest.ty)).setOpcode Op.andI.opcode))) s rd
        word ↔ (s.read rs).setWidth dest.size = word := by
  have hkinds : (widenRegisters ((i.push (.immediate (Word.modulus dest.size - 1 : Nat)
      dest.ty)).setOpcode Op.andI.opcode)).operands.map (·.kind) =
        [.physicalReg rd, .physicalReg rs, .immediate (Word.modulus dest.size - 1 : Nat)] := by
    rw [Function.map_kind_widenRegisters]
    show (i.operands ++ [_]).map Operand.kind = _
    rw [hoperands, ← hdest.kind, ← hsource.kind]
    rfl
  have hnarrow : widthOf rd = 32 := hdest.width_eq_iff.1.mpr (Nat.le_of_lt hlt)
  obtain ⟨hop', hkinds'⟩ := map_kind_narrowSource (.inr rfl) hkinds hdest.general hsource.general
  rw [if_pos hnarrow] at hkinds'
  have hmask : IsBitmask (widthOf rd)
      (Word.low (widthOf rd) (Word.modulus dest.size - 1 : Nat)) := by
    rw [hnarrow]
    exact isBitmask_lowMask hpos hlt
  have hview : widthOf (AArch64.registers.withWidth rs 32) = widthOf rd :=
    (hsource.general.widthOf_withWidth 32).trans hnarrow.symm
  have hstep := step_mask hop' hkinds' hview hmask s
  have hfits : dest.size ≤ widthOf rd := by omega
  rw [leaves_iff hstep rfl hfits, Word.and_ones, BitVec.setWidth_setWidth_of_le _ hfits,
    BitVec.setWidth_setWidth_of_le _ (Nat.le_refl _), BitVec.setWidth_setWidth_of_le _ hfits,
    setWidth_read_view hsource.general (Nat.le_of_lt hlt)]

theorem leaves_conversion (hop : op.isWidthConversion) (hpos : 0 < dest.size)
    (hsourceBits : source.size ≤ 64) (hbits : dest.size ≤ 64) (s : Processor)
    (word : BitVec dest.size) :
    Leaves (narrowSource AArch64.registers (widenRegisters
      (conversionForm i op dest source rd))) s rd word ↔ HasConversion op source.size dest.size ∧
        op.convert ((s.read rs).setWidth (takenBits op source.size dest.size)) dest.size =
          word := by
  have hkept := leaves_kept hoperands hdest hsource hbits s word
  have htaken : dest.size ≤ source.size → takenBits op source.size dest.size = dest.size :=
    fun hle => if_pos (.inr hle)
  unfold conversionForm
  cases op with
  | sext =>
    dsimp only
    by_cases hle : dest.size ≤ source.size
    · rw [if_pos hle, hkept, htaken hle, GenericOp.convert_of_le _ _ (Nat.le_refl _),
        BitVec.setWidth_eq]
      exact and_congr_left' (iff_of_true (by omega) fun hlt => absurd hle (Nat.not_le_of_lt hlt))
    · have hlt := Nat.lt_of_not_le hle
      rw [if_neg hle, leaves_signed hoperands hdest hsource hbits hlt]
      exact and_congr_left' ⟨fun h _ => h, fun h => h hlt⟩
  | zext =>
    dsimp only
    by_cases hle : dest.size ≤ source.size
    · rw [if_pos hle, hkept, htaken hle, GenericOp.convert_of_le _ _ (Nat.le_refl _),
        BitVec.setWidth_eq]
      exact and_congr_left' (iff_of_true (by omega) trivial)
    · rw [if_neg hle, leaves_unsigned hoperands hdest hsource hbits,
        takenBits_of_lt (by decide) (Nat.lt_of_not_le hle)]
      exact (and_iff_right trivial).symm
  | trunc =>
    have hconvert : GenericOp.trunc.convert ((s.read rs).setWidth
        (takenBits .trunc source.size dest.size)) dest.size = (s.read rs).setWidth dest.size :=
      BitVec.setWidth_eq _
    dsimp only
    rw [hconvert]
    split_ifs with hwide
    · exact hkept
    · have hlt := Nat.lt_of_not_le hwide
      rw [leaves_masked hoperands hdest hsource hpos hlt]
      exact (and_iff_right (.inl (Nat.le_of_lt hlt))).symm
  | _ => cases hop

end Placed

end Processor

theorem takenBits_pos {source dest : Nat} (h : 0 < dest) : 0 < takenBits op source dest := by
  rw [takenBits, unitBits]
  split_ifs <;> omega

/-- The code of a conversion, touched up, leaves what its only instruction does. -/
theorem run_conversionForm_iff (hop : op.isWidthConversion)
    (hoperands : i.operands = [dest, source]) (hdest : IsPlaced dest rd)
    (hsource : IsPlaced source rs) (hpos : 0 < dest.size) (hsourceBits : source.size ≤ 64)
    (hdestBits : dest.size ≤ 64) (s : Processor)
    (word : BitVec dest.size) :
    (∃ s', Processor.run ([widenRegisters (conversionForm i op dest source rd)].map
        (narrowSource registers)) s = some s' ∧ (s'.read rd).setWidth dest.size = word) ↔
      HasConversion op source.size dest.size ∧
        op.convert ((s.read rs).setWidth (takenBits op source.size dest.size)) dest.size =
          word := by
  rw [← Processor.leaves_conversion hoperands hdest hsource hop hpos hsourceBits hdestBits s word,
    List.map_singleton, Processor.run_singleton]
  rfl

/-- **When conversions compute what constants fold to.**  Wherever a conversion between views of
general-purpose registers stands, selection and the touch-ups turn it into code.  This leaves the
sign extension, zero extension or truncation of the low bits of the source register, which is what
constants fold to, exactly if there is an instruction for the widths and the source register has the
right bits between those of its value and those that the instruction takes. -/
theorem converts_iff {i : Instruction} {op : GenericOp} {dest source : Operand} {rd rs : RegId}
    (hop : i.opcode = .generic op) (hconversion : op.isWidthConversion)
    (hoperands : i.operands = [dest, source]) (hdest : IsPlaced dest rd)
    (hsource : IsPlaced source rs) (hsourceBits : 0 < source.size ∧ source.size ≤ 64)
    (hdestBits : 0 < dest.size ∧ dest.size ≤ 64) :
    ∃ code, Function.SelectsTo aarch64 [i] code ∧ ∀ s : Processor,
      ((∃ s', Processor.run (code.map (narrowSource registers)) s = some s' ∧
          (s'.read rd).setWidth dest.size =
            op.convert ((s.read rs).setWidth source.size) dest.size) ↔
        HasConversion op source.size dest.size ∧
          op.FillsUp (min (takenBits op source.size dest.size) source.size)
            (max (takenBits op source.size dest.size) source.size) dest.size (s.read rs)) ∧
      ∀ value folded, Word.IsSigned value → op.Converts value source.size dest.size →
        .ofInt source.size value = (s.read rs).setWidth source.size →
        foldConversion op value source.size dest.size = .ok folded →
        op.convert ((s.read rs).setWidth source.size) dest.size = .ofInt dest.size folded := by
  refine ⟨_, selectsTo_conversionForm hop hconversion hoperands hdest.kind, fun s => ⟨?_, ?_⟩⟩
  · rw [run_conversionForm_iff hconversion hoperands hdest hsource hdestBits.1 hsourceBits.2
      hdestBits.2, op.convert_eq_iff _ (takenBits_pos hdestBits.1) hsourceBits.1]
  · intro value folded hvalue hconverts hlow hfolded
    rw [← hlow, ofInt_of_foldConversion hconversion hvalue hconverts hfolded]

/-- What a compare leaves is extended to 32 bits. -/
def extendFlag (op : GenericOp) : Instruction :=
  Instruction.generic op [.physicalReg (w 0) (.integer 32), .physicalReg (w 1) (.integer 1)]

theorem isPlaced_flag : IsPlaced (.physicalReg (w 0) (.integer 32)) (w 0) ∧
    IsPlaced (.physicalReg (w 1) (.integer 1)) (w 1) :=
  ⟨⟨rfl, by decide, by decide +kernel⟩, ⟨rfl, by decide, by decide +kernel⟩⟩

theorem setWidth_read_flag {s : Processor} (hs : s.registers (x 1) = 1) {bits : Nat}
    (hbits : bits ≤ 32) : (s.read (w 1)).setWidth bits = (1#64).setWidth bits := by
  have hwidth : widthOf (w 1) = 32 := by decide +kernel
  have hroot : registers.root (w 1) = x 1 := by decide +kernel
  rw [Processor.setWidth_read (hbits.trans (Nat.le_of_eq hwidth.symm)), hroot, hs]
  rfl

/-- With zeros it is extended as it should be. -/
theorem converts_iff_flag : ∃ code, Function.SelectsTo aarch64 [extendFlag .zext] code ∧
    ∀ s : Processor, s.registers (x 1) = 1 → ∃ s',
      Processor.run (code.map (narrowSource registers)) s = some s' ∧
        (s'.read (w 0)).setWidth 32 = 1#32 := by
  obtain ⟨code, hselects, hcode⟩ :=
    converts_iff (show (extendFlag .zext).opcode = .generic .zext from rfl) rfl rfl
      isPlaced_flag.1 isPlaced_flag.2 (by decide) (by decide)
  refine ⟨code, hselects, fun s hs => ?_⟩
  have hfills : GenericOp.zext.FillsUp 1 8 32 (s.read (w 1)) := by
    rw [← GenericOp.convert_eq_iff_of_le _ _ (by decide) (by decide),
      setWidth_read_flag hs (by decide), setWidth_read_flag hs (by decide)]
    decide
  obtain ⟨s', hs', hread⟩ := (hcode s).1.mpr ⟨trivial, hfills⟩
  have hone : (s.read (w 1)).setWidth 1 = (1#64).setWidth 1 := setWidth_read_flag hs (by decide)
  refine ⟨s', hs', hread.trans ?_⟩
  show GenericOp.zext.convert ((s.read (w 1)).setWidth 1) 32 = _
  rw [hone]
  decide

/-- With its sign it is not, since the byte is extended that holds it. -/
theorem not_converts_flag : foldConversion .sext 1 1 32 = .ok (-1) ∧
    ∃ code, Function.SelectsTo aarch64 [extendFlag .sext] code ∧
      ∀ s : Processor, s.registers (x 1) = 1 → ∃ s',
        Processor.run (code.map (narrowSource registers)) s = some s' ∧
          (s'.read (w 0)).setWidth 32 = 1#32 ∧ 1#32 ≠ .ofInt 32 (-1) := by
  refine ⟨rfl, _, selectsTo_conversionForm rfl rfl rfl rfl, fun s hs => ?_⟩
  have hbyte : (s.read (w 1)).setWidth 8 = (1#64).setWidth 8 := setWidth_read_flag hs (by decide)
  have hword : GenericOp.sext.convert ((s.read (w 1)).setWidth 8) 32 = 1#32 := by
    rw [hbyte]
    decide
  have hconversion : GenericOp.sext.isWidthConversion := rfl
  have hoperands : (extendFlag .sext).operands =
      [.physicalReg (w 0) (.integer 32), .physicalReg (w 1) (.integer 1)] := rfl
  obtain ⟨s', hs', hread⟩ := (run_conversionForm_iff hconversion hoperands isPlaced_flag.1
    isPlaced_flag.2 (by decide) (by decide) (by decide) s (1#32)).mpr
    ⟨fun _ => .inl (by decide), hword⟩
  exact ⟨s', hs', hread, by decide⟩

end AArch64

end Target

end Retarget
