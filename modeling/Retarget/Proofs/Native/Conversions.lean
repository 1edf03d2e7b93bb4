import Retarget.Proofs.Native.Processor

/-!
# Conversions in RV32 registers

Sign extensions, zero extensions and truncations keep some low bits of a word and fill up the
others.  Which bits a processor takes instead makes no difference as long as the bits in between are
those that are filled up with (`GenericOp.convert_eq_iff`).

On RV32 conversions between registers compute what constants fold to, for widths up to 32 bits and
whatever the source register holds above its value (`Riscv.exists_converts`): a move, a mask or a
pair of shifts takes the bits that the conversion keeps.
-/

namespace Retarget

open Machine

/-! ## Words -/

namespace Word

variable {w n : Nat}

theorem setWidth_signExtend (x : BitVec n) {m : Nat} (hle : m ≤ w) :
    (x.signExtend w).setWidth m = x.signExtend m := by
  refine BitVec.eq_of_getLsbD_eq fun k hk => ?_
  rw [BitVec.getLsbD_setWidth, BitVec.getLsbD_signExtend, BitVec.getLsbD_signExtend]
  simp [hk, show k < w by omega]

theorem sshiftRight_shiftLeft (x : BitVec w) (hpos : 0 < n) (hle : n ≤ w) :
    (x <<< (w - n)).sshiftRight (w - n) = (x.setWidth n).signExtend w := by
  have hmsb : (x <<< (w - n)).msb = (x.setWidth n).msb := by
    have hlast : w - 1 - (w - n) = n - 1 := by omega
    rw [BitVec.msb_eq_getLsbD_last, BitVec.msb_eq_getLsbD_last, BitVec.getLsbD_shiftLeft,
      BitVec.getLsbD_setWidth]
    simp [hlast, show w - 1 < w by omega, show ¬w - 1 < w - n by omega, hpos]
  refine BitVec.eq_of_getLsbD_eq fun k hk => ?_
  rw [BitVec.getLsbD_sshiftRight, BitVec.getLsbD_signExtend, hmsb, BitVec.getLsbD_shiftLeft,
    BitVec.getLsbD_setWidth]
  by_cases hlow : k < n
  · simp [hk, hlow, show w - n + k < w by omega, show ¬w ≤ k by omega]
  · simp [hk, hlow, show ¬w - n + k < w by omega, show ¬w ≤ k by omega]

theorem ushiftRight_shiftLeft (x : BitVec w) (hle : n ≤ w) :
    (x <<< (w - n)) >>> (w - n) = (x.setWidth n).setWidth w := by
  refine BitVec.eq_of_getLsbD_eq fun k hk => ?_
  rw [BitVec.getLsbD_ushiftRight]
  by_cases hlow : k < n
  · simp [hk, hlow, show w - n + k < w by omega]
  · simp [hk, hlow, show ¬w - n + k < w by omega]

theorem and_ones (x : BitVec w) (n : Nat) :
    x &&& BitVec.ofInt w (modulus n - 1 : Nat) = (x.setWidth n).setWidth w := by
  refine BitVec.eq_of_getLsbD_eq fun k hk => ?_
  rw [BitVec.ofInt_natCast, BitVec.getLsbD_and, BitVec.getLsbD_ofNat, BitVec.getLsbD_setWidth,
    BitVec.getLsbD_setWidth, modulus]
  simp only [Nat.pow_eq, Nat.testBit_two_pow_sub_one, hk, decide_true, Bool.true_and,
    Bool.and_comm]

end Word

namespace Machine.Function

variable {t : Target} {i : Instruction} {op : GenericOp} {r : Target.Replacement}

theorem SelectsTo.of_select (hop : i.opcode = .generic op)
    (hselect : ∀ f b k, t.select { function := f, block := b, index := k, instruction := i } op =
      .ok r) (hfirst : r.first.isSelected) : SelectsTo t [i] (r.first :: r.rest) := by
  intro f b k hcode
  have hselectAt := selectAt_of_select hcode.instruction? hop (hselect f b k) hfirst
  refine ⟨_, Replaces.replaceAt hcode.instruction? (r.first :: r.rest), fun count => ?_⟩
  rw [List.length_singleton, Nat.add_comm, selectFrom, hselectAt, ok_bind]

end Machine.Function

theorem Target.Site.operand_eq_ok {site : Site} {k : Nat} {o : Operand}
    (h : site.instruction.operands[k]? = some o) : site.operand k = .ok o := by
  rw [Site.operand, Instruction.operand?, h]
  rfl

/-! ## Conversions of words -/

namespace Machine.GenericOp

variable {n : Nat}

/-- How many low bits a conversion keeps. -/
def keptBits (op : GenericOp) (source dest : Nat) : Nat := if op = .trunc then dest else source

theorem convert_of_ne {op : GenericOp} (hop : op ≠ .sext) (x : BitVec n) (dest : Nat) :
    op.convert x dest = x.setWidth dest := by
  cases op with
  | sext => exact absurd rfl hop
  | _ => rfl

/-- No bit of a narrow destination depends on the sign. -/
theorem convert_of_le (op : GenericOp) (x : BitVec n) {dest : Nat} (hle : dest ≤ n) :
    op.convert x dest = x.setWidth dest := by
  cases op with
  | sext => exact BitVec.signExtend_eq_setWidth_of_le x hle
  | _ => rfl

theorem setWidth_convert (op : GenericOp) (x : BitVec n) {dest width : Nat} (hle : dest ≤ width) :
    (op.convert x width).setWidth dest = op.convert x dest := by
  cases op with
  | sext => exact Word.setWidth_signExtend x hle
  | _ => exact BitVec.setWidth_setWidth_of_le x hle

/-- Whether the bits of a word above the low `few`, as far as the low `many` go and the destination
needs them, are those that a conversion fills up with. -/
def FillsUp {n : Nat} (op : GenericOp) (few many dest : Nat) (x : BitVec n) : Prop :=
  ∀ k, few ≤ k → k < min dest many → x.getLsbD k = (op == .sext && x.getLsbD (few - 1))

theorem getLsbD_convert {n m : Nat} (op : GenericOp) (x : BitVec n) (hm : 0 < m) {dest k : Nat}
    (hk : k < dest) : (op.convert (x.setWidth m) dest).getLsbD k =
      if k < m then x.getLsbD k else op == .sext && x.getLsbD (m - 1) := by
  by_cases hsigned : op = .sext
  · subst hsigned
    rw [convert, BitVec.getLsbD_signExtend, BitVec.msb_eq_getLsbD_last, BitVec.getLsbD_setWidth,
      BitVec.getLsbD_setWidth]
    split_ifs with hlow <;> simp [hk, hlow, hm]
  · rw [convert_of_ne hsigned, BitVec.getLsbD_setWidth, BitVec.getLsbD_setWidth]
    split_ifs with hlow <;> simp [hk, hlow, hsigned]

theorem convert_eq_iff_of_le {n few many dest : Nat} (op : GenericOp) (x : BitVec n)
    (hfew : 0 < few) (hle : few ≤ many) :
    op.convert (x.setWidth few) dest = op.convert (x.setWidth many) dest ↔
      op.FillsUp few many dest x := by
  have hmany : 0 < many := Nat.lt_of_lt_of_le hfew hle
  refine ⟨fun h k hk hk' => ?_, fun h => BitVec.eq_of_getLsbD_eq fun k hk => ?_⟩
  · have hbit := congrArg (BitVec.getLsbD · k) h
    rw [op.getLsbD_convert x hfew (by omega), op.getLsbD_convert x hmany (by omega),
      if_neg (Nat.not_lt.mpr hk), if_pos (by omega)] at hbit
    exact hbit.symm
  · rw [op.getLsbD_convert x hfew hk, op.getLsbD_convert x hmany hk]
    split_ifs with hlow hmore hmore
    · rfl
    · omega
    · exact (h k (Nat.le_of_not_lt hlow) (by omega)).symm
    · -- both fill up, with the last of their bits
      rcases Nat.eq_or_lt_of_le hle with rfl | hlt
      · rfl
      · rw [h (many - 1) (by omega) (by omega), Bool.and_self_left]

/-- Conversions of two numbers of low bits agree on the words that the fewer bits stand for. -/
theorem convert_eq_iff {n a b dest : Nat} (op : GenericOp) (x : BitVec n) (ha : 0 < a)
    (hb : 0 < b) : op.convert (x.setWidth a) dest = op.convert (x.setWidth b) dest ↔
      op.FillsUp (min a b) (max a b) dest x := by
  rcases Nat.le_total a b with hle | hle
  · rw [Nat.min_eq_left hle, Nat.max_eq_right hle]
    exact convert_eq_iff_of_le op x ha hle
  · rw [Nat.min_eq_right hle, Nat.max_eq_left hle, eq_comm]
    exact convert_eq_iff_of_le op x hb hle

end Machine.GenericOp

namespace Target

/-! ## Conversions of constants -/

/-- Conversions of constants to and from fewer than 63 bits are folded to the kept bits. -/
theorem exists_foldConversion {op : GenericOp} (hop : op.isWidthConversion) {source dest : Nat}
    (hsource : source < 63) (hdest : dest < 63) (value : Int) :
    ∃ folded, foldConversion op value source dest = .ok folded ∧ ∀ width,
      .ofInt width folded = op.convert (BitVec.ofInt (op.keptBits source dest) value) width := by
  have hmask : ∀ bits < 63, maskTo bits value = .ok (Word.low bits value) := by
    intro bits hbits
    rw [maskTo, if_neg (by omega), if_neg (by omega)]
  cases op with
  | sext =>
    refine ⟨_, rfl, fun width => ?_⟩
    rw [if_pos (by omega), Word.ofInt_signed_low]
    rfl
  | zext => exact ⟨_, hmask source hsource, fun width => Word.ofInt_low value⟩
  | trunc => exact ⟨_, hmask dest hdest, fun width => Word.ofInt_low value⟩
  | _ => cases hop

namespace Riscv

/-! ## RV32 -/

/-- The word that a selected conversion leaves. -/
def convertedWord (op : GenericOp) (source dest : Nat) (x : BitVec 32) : BitVec 32 :=
  if 32 ≤ op.keptBits source dest ∨ op ≠ .trunc ∧ dest ≤ source then x
  else op.convert (x.setWidth (op.keptBits source dest)) 32

theorem convertedWord_eq {op : GenericOp} {source dest : Nat} {x : BitVec 32} {value folded : Int}
    (hsource : source ≤ 32) (hdest : dest ≤ 32) (hx : .ofInt 32 value = x)
    (hfolded : ∀ width,
      .ofInt width folded = op.convert (BitVec.ofInt (op.keptBits source dest) value) width) :
    (convertedWord op source dest x).setWidth dest = .ofInt dest folded ∧
      (op ≠ .trunc → source < dest → convertedWord op source dest x = .ofInt 32 folded) := by
  have hkept : op.keptBits source dest ≤ 32 := by
    rw [GenericOp.keptBits]
    split <;> assumption
  have hlow : .ofInt (op.keptBits source dest) value = x.setWidth (op.keptBits source dest) := by
    rw [← hx, Word.setWidth_ofInt hkept]
  rw [hfolded, hfolded, hlow, convertedWord]
  split
  · next hall =>
    -- all bits of the destination are bits of the source
    have hle : dest ≤ op.keptBits source dest ∧ ¬(op ≠ .trunc ∧ source < dest) := by
      by_cases htrunc : op = .trunc
      · rw [GenericOp.keptBits, if_pos htrunc]
        exact ⟨Nat.le_refl dest, fun h => h.1 htrunc⟩
      · rw [GenericOp.keptBits, if_neg htrunc] at hall ⊢
        exact ⟨by omega, by omega⟩
    rw [op.convert_of_le _ hle.1, BitVec.setWidth_setWidth_of_le x hle.1]
    exact ⟨rfl, fun hextends hlt => absurd ⟨hextends, hlt⟩ hle.2⟩
  · exact ⟨op.setWidth_convert _ hdest, fun _ _ => rfl⟩

variable {i : Instruction} {op : GenericOp} {dest source : Operand} {rd rs : RegId}

def conversionForm (i : Instruction) (op : GenericOp) (dest source : Operand) : Replacement :=
  let kept := op.keptBits source.size dest.size
  if 32 ≤ kept ∨ op ≠ .trunc ∧ dest.size ≤ source.size then ⟨i.setOpcode Op.mv.opcode, []⟩
  else if op = .sext then shiftPair dest source (32 - kept) .srai
  else if kept ≤ 11 then
    ⟨Op.andi.on [dest, source, .immediate (Word.modulus kept - 1 : Nat) dest.ty], []⟩
  else shiftPair dest source (32 - kept) .srli

theorem select_conversion {site : Site} (hop : op.isWidthConversion)
    (hoperands : site.instruction.operands = [dest, source]) (hsourceBits : source.size ≤ 32)
    (hdestBits : dest.size ≤ 32) :
    riscv32.select site op = .ok (conversionForm site.instruction op dest source) := by
  have hoperand : ∀ k o, [dest, source][k]? = some o → site.operand k = .ok o :=
    fun k o ho => Site.operand_eq_ok (hoperands ▸ ho)
  have hselect : riscv32.select site op = selectConversion site op := by
    cases op <;> first | rfl | cases hop
  rw [hselect, selectConversion, hoperand 0 dest rfl, ok_bind, hoperand 1 source rfl, ok_bind,
    Nat.min_eq_left hsourceBits, Nat.min_eq_left hdestBits, conversionForm]
  simp only [GenericOp.keptBits, Bool.or_eq_true, Bool.and_eq_true, decide_eq_true_eq, bne_iff_ne]
  split_ifs <;> rfl

theorem isSelected_conversionForm : (conversionForm i op dest source).first.isSelected := by
  rw [conversionForm]
  split_ifs <;> rfl

theorem fitsSigned_mask {bits : Nat} (h : bits ≤ 11) :
    Word.fitsSigned (Word.modulus bits - 1 : Nat) 12 := by
  have hle : Word.modulus bits ≤ Word.modulus 11 := Nat.pow_le_pow_right (by decide) h
  have hmodulus : Word.modulus 11 = 2048 := rfl
  rw [Word.fitsSigned, Bool.or_eq_true, Bool.and_eq_true, decide_eq_true_eq, decide_eq_true_eq]
  have hpos : 0 < Word.modulus bits := Nat.two_pow_pos bits
  rw [decide_eq_true_eq]
  show _ ∨ -(Word.modulus 11 : Int) ≤ _ ∧ _ < (Word.modulus 11 : Int)
  omega

namespace Processor

theorem write_write (s : Processor) (reg : RegId) (x y : BitVec 32) :
    (s.write reg x).write reg y = s.write reg y := by
  rw [write, write, write, Contents.write, Contents.write, Contents.write, Function.update_idem]

theorem isShift {amount : Nat} (h : amount < 32) : 0 ≤ (amount : Int) ∧ (amount : Int) < 32 :=
  ⟨Int.natCast_nonneg _, Int.ofNat_lt.mpr h⟩

theorem run_shiftPair {amount : Nat} {right : Op} {word : BitVec 32 → BitVec 32}
    (hdest : dest.kind = .physicalReg rd) (hsource : source.kind = .physicalReg rs)
    (hrd : rd ≠ zero) (hamount : amount < 32)
    (hword : ∀ (s : Processor) (x : BitVec 32), s.word? right x amount = some (word x))
    (s : Processor) :
    let r := shiftPair dest source amount right
    run (r.first :: r.rest) s = some (s.write rd (word (s.read rs <<< amount))) := by
  intro r
  have hleft : r.first.operands.map (·.kind) =
      [.physicalReg rd, .physicalReg rs, .immediate amount] := by
    rw [← hdest, ← hsource]
    rfl
  have hback : (right.on [dest, dest, .immediate amount dest.ty]).operands.map (·.kind) =
      [.physicalReg rd, .physicalReg rd, .immediate amount] := by
    rw [← hdest]
    rfl
  have hshifted : s.word? .slli (s.read rs) amount = some (s.read rs <<< amount) :=
    if_pos (isShift hamount)
  show run [r.first, right.on [dest, dest, .immediate amount dest.ty]] s = _
  rw [run_cons, step_word (show r.first.opcode = Op.slli.opcode from rfl) hleft hshifted,
    Option.bind_some, run_cons, step_word rfl hback (hword _ _), Option.bind_some, read_write hrd,
    write_write]
  rfl

theorem run_conversionForm (hoperands : i.operands = [dest, source])
    (hdest : dest.kind = .physicalReg rd) (hsource : source.kind = .physicalReg rs)
    (hrd : rd ≠ zero) (hpos : op = .sext → 0 < source.size) (s : Processor) :
    run ((conversionForm i op dest source).first :: (conversionForm i op dest source).rest) s =
      some (s.write rd (convertedWord op source.size dest.size (s.read rs))) := by
  rw [conversionForm, convertedWord]
  generalize hkept : op.keptBits source.size dest.size = kept
  split_ifs with hall hsigned hshort
  · have hkinds : (i.setOpcode Op.mv.opcode).operands.map (·.kind) =
        [.physicalReg rd, .physicalReg rs] := by
      show i.operands.map (·.kind) = _
      rw [hoperands, ← hdest, ← hsource]
      rfl
    rw [run_cons, step_move rfl hkinds]
    rfl
  · have hle : kept ≤ 32 := Nat.le_of_not_le (hall ∘ .inl)
    have hpos' : 0 < kept := by
      subst hsigned
      exact hkept ▸ hpos rfl
    have hamount : 32 - kept < 32 := Nat.sub_lt (by decide) hpos'
    have hword : ∀ (s : Processor) (x : BitVec 32), s.word? .srai x (32 - kept : Nat) =
        some (x.sshiftRight (32 - kept)) := fun _ _ => if_pos (isShift hamount)
    rw [run_shiftPair hdest hsource hrd hamount hword, Word.sshiftRight_shiftLeft _ hpos' hle,
      hsigned]
    rfl
  · have hkinds : (Op.andi.on [dest, source,
        .immediate (Word.modulus kept - 1 : Nat) dest.ty]).operands.map (·.kind) =
          [.physicalReg rd, .physicalReg rs, .immediate (Word.modulus kept - 1 : Nat)] := by
      rw [← hdest, ← hsource]
      rfl
    have hmask : s.word? .andi (s.read rs) (Word.modulus kept - 1 : Nat) =
        some (((s.read rs).setWidth kept).setWidth 32) := by
      rw [← Word.and_ones, word?, if_pos (fitsSigned_mask hshort)]
    rw [run_cons, step_word (by rfl) hkinds hmask, GenericOp.convert_of_ne hsigned]
    rfl
  · have hle : kept ≤ 32 := Nat.le_of_not_le (hall ∘ .inl)
    have hamount : 32 - kept < 32 := by omega
    have hword : ∀ (s : Processor) (x : BitVec 32), s.word? .srli x (32 - kept : Nat) =
        some (x >>> (32 - kept)) := fun _ _ => if_pos (isShift hamount)
    rw [run_shiftPair hdest hsource hrd hamount hword, Word.ushiftRight_shiftLeft _ hle,
      GenericOp.convert_of_ne hsigned]

end Processor

/-- **Conversions agree with the folding of constants.**  Wherever a conversion between registers of
at most 32 bits stands, the destination the same as the source or not, selection turns it into code
that leaves in the destination the bits of the folded constant, for whatever the source register
held, and all 32 of them after an extension to more bits. -/
theorem exists_converts {i : Instruction} {op : GenericOp} {dest source : Operand} {rd rs : RegId}
    (hop : i.opcode = .generic op) (hconversion : op.isWidthConversion)
    (hoperands : i.operands = [dest, source]) (hdest : dest.kind = .physicalReg rd)
    (hsource : source.kind = .physicalReg rs) (hrd : rd ≠ zero) (hpos : 0 < source.size)
    (hsourceBits : source.size ≤ 32) (hdestBits : dest.size ≤ 32) :
    ∃ code, Function.SelectsTo riscv32 [i] code ∧
      ∀ (s : Processor) (value : Int), .ofInt 32 value = s.read rs → ∃ folded s',
        foldConversion op value source.size dest.size = .ok folded ∧
        Processor.run code s = some s' ∧
        (s'.read rd).setWidth dest.size = .ofInt dest.size folded ∧
        (op ≠ .trunc → source.size < dest.size → s'.read rd = .ofInt 32 folded) ∧
        (∀ r ≠ rd, s'.read r = s.read r) ∧ s'.memory = s.memory := by
  refine ⟨_, .of_select hop (fun _ _ _ => select_conversion hconversion hoperands hsourceBits
    hdestBits) isSelected_conversionForm, fun s value hvalue => ?_⟩
  obtain ⟨folded, hfolded, hbits⟩ := exists_foldConversion hconversion
    (Nat.lt_of_le_of_lt hsourceBits (by decide)) (Nat.lt_of_le_of_lt hdestBits (by decide)) value
  refine ⟨folded, _, hfolded,
    Processor.run_conversionForm hoperands hdest hsource hrd (fun _ => hpos) s, ?_⟩
  rw [Processor.read_write hrd]
  have hword := convertedWord_eq hsourceBits hdestBits hvalue hbits
  exact ⟨hword.1, hword.2, fun r hr => Processor.read_write_of_ne hr, rfl⟩

/-- Seven bits are extended with their sign, in the register that holds them. -/
def narrow : Instruction :=
  Instruction.generic .sext [.physicalReg 10 (.integer 19), .physicalReg 10 (.integer 7)]

theorem exists_converts_narrow : ∃ code, Function.SelectsTo riscv32 [narrow] code ∧
    ∀ s : Processor, ∃ folded s', foldConversion .sext (s.read 10).toInt 7 19 = .ok folded ∧
      Processor.run code s = some s' ∧ s'.read 10 = .ofInt 32 folded := by
  obtain ⟨code, hselects, hrun⟩ := exists_converts (show narrow.opcode = .generic .sext from rfl)
    rfl rfl rfl rfl (by decide) (by decide) (by decide) (by decide)
  refine ⟨code, hselects, fun s => ?_⟩
  obtain ⟨folded, s', hfolded, hs', -, hword, -⟩ :=
    hrun s (s.read 10).toInt (BitVec.ofInt_toInt)
  exact ⟨folded, s', hfolded, hs', hword (by decide) (by decide)⟩

end Riscv

end Target

end Retarget
