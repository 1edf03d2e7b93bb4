import Mathlib.Tactic.SplitIfs
import Retarget.Proofs.Shape.Templates

/-!
# Selection makes every instruction fit

On each target an allocated instruction turns into instructions that fit their templates
(`AArch64.selects`, `Riscv.selects`): a form is chosen with as many operands as the instruction
keeps, and what is added is final.
-/

namespace Retarget

open Machine (Function Instruction Operand GenericOp Opcode)

namespace Machine

namespace Operand

@[simp] theorem isFinal_immediate (v : Int) (ty : LowType) : (immediate v ty).isFinal = true := rfl

@[simp] theorem isFinal_physicalReg (r : RegId) (ty : LowType) :
    (physicalReg r ty).isFinal = true :=
  rfl

end Operand

namespace Instruction

variable {t : Target} {i : Instruction}

theorem allocated_iff_final {n : Nat} (h : i.opcode = .native n) : i.Allocated t ↔ i.Final t := by
  refine ⟨fun ha => ⟨?_, ha.final⟩, fun hf => ⟨?_, hf.final⟩⟩
  · simpa [h] using ha.form
  · simpa [h] using hf.fits

theorem Final.allocated (h : i.Final t) : i.Allocated t := by
  refine ⟨?_, h.final⟩
  cases hcode : i.opcode with
  | native n => exact h.fits
  | generic op =>
    have := h.fits.1
    simp [isSelected, hcode, Opcode.isSelected] at this

theorem Allocated.length_mem (h : i.Allocated t) {op : GenericOp} (hop : i.opcode = .generic op) :
    i.operands.length ∈ op.widths := by
  have hform := h.form
  rw [hop] at hform
  exact hform

theorem Allocated.length_eq (h : i.Allocated t) {op : GenericOp} (hop : i.opcode = .generic op)
    {n : Nat} (hwidths : op.widths = [n]) : i.operands.length = n := by
  have hmem := h.length_mem hop
  rwa [hwidths, List.mem_singleton] at hmem

theorem final_of_operand? (h : i.Allocated t) {n : Nat} {o : Operand} (ho : i.operand? n = some o) :
    o.isFinal :=
  h.final o (List.mem_of_getElem? ho)

end Instruction

end Machine

namespace Target

open Machine

/-- What an instruction turns into can be printed. -/
structure Replacement.Final (t : Target) (r : Replacement) : Prop where
  first : r.first.Final t
  rest : ∀ i ∈ r.rest, i.Final t

theorem Replacement.Final.single {t : Target} {i : Instruction} (h : i.Final t) :
    Replacement.Final t ⟨i, []⟩ :=
  ⟨h, by simp⟩

/-- An allocated instruction turns into final ones. -/
def Selects (t : Target) : Prop :=
  ∀ (site : Site) (op : GenericOp), site.instruction.opcode = .generic op →
    site.instruction.Allocated t → Yields (Replacement.Final t) (t.select site op)

/-! ## AArch64 -/

namespace AArch64

variable {site : Site} {i : Instruction}

theorem Op.final (op : Op) (hopcode : i.opcode = op.opcode)
    (hlength : i.operands.length = op.operandCount) (hfinal : ∀ o ∈ i.operands, o.isFinal) :
    i.Final aarch64 :=
  ⟨op.fits hopcode hlength, hfinal⟩

theorem Op.final_on (op : Op) {operands : List Operand}
    (hlength : operands.length = op.operandCount) (hfinal : ∀ o ∈ operands, o.isFinal) :
    (op.on operands).Final aarch64 :=
  op.final rfl hlength hfinal

theorem Op.final_setOpcode (op : Op) (h : i.Allocated aarch64)
    (hlength : i.operands.length = op.operandCount) : (i.setOpcode op.opcode).Final aarch64 :=
  op.final rfl hlength h.final

theorem final_widenRegisters (h : i.Final aarch64) : (widenRegisters i).Final aarch64 := by
  refine ⟨h.fits.congr rfl (by simp [widenRegisters, Instruction.withOperands]), fun o ho => ?_⟩
  obtain ⟨o', ho', rfl⟩ := List.mem_map.mp ho
  have hfinal := h.final o' ho'
  split
  · exact hfinal
  · exact hfinal

section

variable (op : GenericOp) (h : site.instruction.Allocated aarch64)
include h

theorem yields_selectBinary (hlength : site.instruction.operands.length = 3) :
    Yields (Replacement.Final aarch64) (selectBinary site op) := by
  rw [selectBinary]
  refine .orFail_bind rfl fun forms hforms => ?_
  obtain ⟨inRegister, constant⟩ := forms
  have hcounts : inRegister.operandCount = 3 ∧ ∀ c, constant = some c → c.operandCount = 3 := by
    cases op <;> cases hforms <;> simp [Op.operandCount]
  refine .orFail_bind rfl fun second hsecond => ?_
  dsimp only
  split
  · exact .pure (.single (Op.final_setOpcode _ h (hlength.trans hcounts.1.symm)))
  · split
    · refine .orFail_bind rfl fun c hc => .pure (.single (Op.final_setOpcode _ h ?_))
      exact hlength.trans (hcounts.2 c hc).symm
    · exact .throw rfl

theorem yields_selectCompare (rs : Registers) (isFloat : Bool)
    (hlength : site.instruction.operands.length = 3) :
    Yields (Replacement.Final aarch64) (selectCompare rs site isFloat) := by
  have hcompare : ∀ op : Op, op.operandCount = 2 →
      ((site.instruction.setOpcode op.opcode).eraseOperand 0).Final aarch64 := by
    intro op hop
    refine op.final rfl ?_ (forall_mem_eraseIdx h.final _)
    simp [hlength, hop]
  rw [selectCompare]
  refine .orFail_bind rfl fun relation hrelation => ?_
  refine .orFail_bind rfl fun dest hdest => ?_
  refine .orFail_bind rfl fun second hsecond => ?_
  have hset : (((Op.setOn relation).on [dest]).withRelation relation).Final aarch64 := by
    refine (Op.setOn relation).final rfl ?_ ?_
    · cases relation <;> rfl
    · simpa [Op.on] using Instruction.final_of_operand? h hdest
  have hanswer : ∀ (op : Op) (feedsBranch : Bool), op.operandCount = 2 →
      Replacement.Final aarch64 ⟨(site.instruction.setOpcode op.opcode).eraseOperand 0,
        if feedsBranch then [] else [((Op.setOn relation).on [dest]).withRelation relation]⟩ := by
    intro op feedsBranch hop
    refine ⟨hcompare op hop, ?_⟩
    cases feedsBranch
    · simpa using hset
    · simp
  split
  · exact .pure (hanswer .fcmp _ rfl)
  · exact .pure (hanswer .cmpR _ rfl)
  · exact .pure (hanswer .cmpI _ rfl)
  · exact .throw rfl

theorem yields_selectBranch (hlength : site.instruction.operands.length ∈ [2, 3]) :
    Yields (Replacement.Final aarch64) (selectBranch site) := by
  unfold selectBranch
  extract_lets instr cond relation falseTarget taken branch
  have htaken : taken.operands.length = 2 ∧ ∀ o ∈ taken.operands, o.isFinal := by
    simp only [taken, instr]
    split
    · next hthree =>
      refine ⟨?_, forall_mem_eraseIdx h.final _⟩
      rw [beq_iff_eq] at hthree
      rw [Instruction.operands_eraseOperand, List.length_eraseIdx_of_lt (by omega), hthree]
    · next hthree =>
      refine ⟨?_, h.final⟩
      simp only [List.mem_cons, List.not_mem_nil, or_false] at hlength
      exact hlength.resolve_right (by simpa using hthree)
  refine .ok ⟨?_, fun i hi => ?_⟩
  · show branch.Final aarch64
    unfold branch
    cases relation with
    | some r =>
      refine (Op.branchOn r).final rfl ?_ fun o ho => htaken.2 o (List.mem_of_mem_eraseIdx ho)
      cases r <;> simp [htaken.1, Op.branchOn, Op.operandCount]
    | none => exact Op.cbnz.final rfl htaken.1 htaken.2
  · obtain ⟨label, hlabel, rfl⟩ := List.mem_map.mp hi
    have hlabel : label ∈ site.instruction.operands := by
      simp only [falseTarget] at hlabel
      split at hlabel
      · exact List.mem_of_getElem? (Option.mem_toList.mp hlabel)
      · simp at hlabel
    exact Op.b.final rfl rfl (by simpa [Op.on] using h.final label hlabel)

omit h in
theorem final_moveField {dest : Operand} (hdest : dest.isFinal) (value : Int) (shift : Nat) :
    ∀ i ∈ moveField dest value shift, i.Final aarch64 := by
  unfold moveField
  extract_lets field
  split
  · simp
  · rw [List.forall_mem_singleton]
    refine Op.movk.final_on rfl ?_
    simp [hdest]

theorem yields_selectConstant (hlength : site.instruction.operands.length = 2) :
    Yields (Replacement.Final aarch64) (selectConstant site) := by
  rw [selectConstant]
  refine .orFail_bind rfl fun dest hdest => ?_
  refine .orFail_bind rfl fun source hsource => ?_
  refine .orFail_bind rfl fun constant hconstant => ?_
  have hmove : ∀ v : Int, ((site.instruction.setOpcode Op.movI.opcode).replaceOperand 1
      (.immediate v dest.ty)).Final aarch64 := by
    intro v
    exact Op.movI.final rfl (by simp [hlength, Op.operandCount])
      (forall_mem_set h.final _ rfl)
  extract_lets width value small move
  split
  · exact .pure (.single (hmove small))
  · split
    · exact .throw rfl
    · refine .pure ⟨hmove _, fun i hi => ?_⟩
      obtain ⟨shift, -, hi⟩ := List.mem_flatMap.mp hi
      exact final_moveField (Instruction.final_of_operand? h hdest) _ shift i hi

theorem yields_selectMove (rs : Registers) (hlength : site.instruction.operands.length = 2) :
    Yields (Replacement.Final aarch64) (selectMove rs site) := by
  rw [selectMove]
  refine .orFail_bind rfl fun source hsource => ?_
  split
  · exact yields_selectConstant h hlength
  · refine .orFail_bind rfl fun dest hdest => .pure (.single (Op.final_setOpcode _ h ?_))
    split <;> exact hlength

omit h in
theorem operandCount_loadOp (bits : Nat) (isFloat : Bool) :
    (loadOp bits isFloat).operandCount = 3 := by
  rw [loadOp]
  split_ifs <;> rfl

omit h in
theorem operandCount_storeOp (bits : Nat) (isFloat : Bool) :
    (storeOp bits isFloat).operandCount = 3 := by
  rw [storeOp]
  split_ifs <;> rfl

theorem yields_selectLoad (rs : Registers) (hlength : site.instruction.operands.length = 3) :
    Yields (Replacement.Final aarch64) (selectLoad rs site) := by
  refine .orFail_bind rfl fun dest hdest => .pure (.single (Op.final_setOpcode _ h ?_))
  rw [hlength, operandCount_loadOp]

theorem yields_selectZextLoad (rs : Registers) (hlength : site.instruction.operands.length = 4) :
    Yields (Replacement.Final aarch64) (selectZextLoad rs site) := by
  rw [selectZextLoad]
  refine .orFail_bind rfl fun dest hdest => ?_
  refine .orFail_bind rfl fun source hsource => ?_
  refine .orFail_bind rfl fun width hwidth => ?_
  refine .orFail_bind rfl fun reg hreg => .pure (.single (Op.final _ rfl ?_ ?_))
  · simp [operandCount_loadOp, List.length_eraseIdx, hlength]
  · exact forall_mem_modify (forall_mem_eraseIdx h.final _) _ fun o _ => rfl

theorem yields_selectStore (rs : Registers) (hlength : site.instruction.operands.length = 3) :
    Yields (Replacement.Final aarch64) (selectStore rs site) := by
  rw [selectStore]
  refine .orFail_bind rfl fun value hvalue => ?_
  split
  · refine .pure (.single (Op.final_setOpcode _ h ?_))
    rw [hlength, operandCount_storeOp]
  · exact .throw rfl

theorem yields_selectConversion (rs : Registers) (hlength : site.instruction.operands.length = 2) :
    Yields (Replacement.Final aarch64) (selectConversion rs site op) := by
  rw [selectConversion]
  refine .orFail_bind rfl fun dest hdest => ?_
  refine .orFail_bind rfl fun source hsource => ?_
  dsimp only
  split
  · refine .pure (.single (Op.final_setOpcode _ h ?_))
    split_ifs <;> exact hlength
  · split
    · exact .pure (.single (Op.final_setOpcode .movR h hlength))
    · refine .orFail_bind rfl fun reg hreg => .pure (.single (Op.final _ rfl ?_ ?_))
      · rw [Instruction.operands_setOpcode, Instruction.operands_modifyOperand, List.length_modify]
        split_ifs <;> exact hlength
      · exact forall_mem_modify h.final _ fun o _ => rfl
  · split
    · exact .pure (.single (Op.final_setOpcode .movR h hlength))
    · refine .pure (.single (Op.andI.final rfl ?_ fun o ho => ?_))
      · simp [hlength, Op.operandCount]
      · rcases List.mem_append.mp ho with ho | ho
        · exact h.final o ho
        · rw [List.mem_singleton.mp ho]
          rfl
  · exact .pure (.single (Op.final_setOpcode .scvtf h hlength))
  · exact .pure (.single (Op.final_setOpcode .fcvtzs h hlength))
  · exact .throw rfl

/-- Every operation has a form for each number of operands that it can have. -/
theorem yields_selectForm (rs : Registers) (hop : site.instruction.opcode = .generic op) :
    Yields (Replacement.Final aarch64) (selectForm rs site op) := by
  cases op with
  | add | sub | and | or | xor | lsl | lsr | mul | div | divu | addf | subf | mulf | divf =>
    exact yields_selectBinary _ h (h.length_eq hop rfl)
  | cmp | cmpf => exact yields_selectCompare h rs _ (h.length_eq hop rfl)
  | sext => exact yields_selectConversion .sext h rs (h.length_eq hop rfl)
  | zext => exact yields_selectConversion .zext h rs (h.length_eq hop rfl)
  | trunc => exact yields_selectConversion .trunc h rs (h.length_eq hop rfl)
  | itof => exact yields_selectConversion .itof h rs (h.length_eq hop rfl)
  | ftoi => exact yields_selectConversion .ftoi h rs (h.length_eq hop rfl)
  | loadImm => exact yields_selectConstant h (h.length_eq hop rfl)
  | mov | movf => exact yields_selectMove h rs (h.length_eq hop rfl)
  | load => exact yields_selectLoad h rs (h.length_eq hop rfl)
  | zextLoad => exact yields_selectZextLoad h rs (h.length_eq hop rfl)
  | store => exact yields_selectStore h rs (h.length_eq hop rfl)
  | stackAddress => exact .ok (.single (Op.addI.final_setOpcode h (h.length_eq hop rfl)))
  | branch => exact yields_selectBranch h (h.length_mem hop)
  | jump => exact .ok (.single (Op.b.final_setOpcode h (h.length_eq hop rfl)))
  | call => exact .ok (.single (Op.bl.final_setOpcode h (h.length_eq hop rfl)))
  | ret => exact .ok (.single (Op.ret.final rfl rfl (by simp)))
  | mod | modu | globalAddress => exact .error rfl

end

end AArch64

theorem AArch64.selects : Selects aarch64 := by
  intro site op hop h
  refine (yields_selectForm op h registers hop).bind fun form hform => .pure ⟨?_, hform.rest⟩
  exact final_widenRegisters hform.first

theorem AArch64.final_narrowSource {i : Instruction} (h : i.Final aarch64) :
    (narrowSource registers i).Final aarch64 := by
  rw [narrowSource]
  split
  · refine ⟨h.fits.congr rfl (by simp), forall_mem_modify h.final _ fun o ho => ?_⟩
    replace ho := h.final o (List.mem_of_getElem? ho)
    split
    · split
      · rfl
      · exact ho
    · exact ho
  · exact h

theorem AArch64.final_fixUp {f : Function} (h : f.All (·.Final aarch64)) :
    (aarch64.fixUp f).All (·.Final aarch64) := by
  intro i hi
  obtain ⟨b, hb, hi⟩ := Function.mem_instructions.mp hi
  obtain ⟨block, hblock, rfl⟩ := List.mem_map.mp hb
  obtain ⟨j, hj, rfl⟩ := List.mem_map.mp hi
  exact final_narrowSource (h j (Function.mem_instructions.mpr ⟨block, hblock, hj⟩))

/-! ## RV32 -/

namespace Riscv

variable {site : Site} {i : Instruction}

theorem Op.final (op : Op) (hopcode : i.opcode = op.opcode)
    (hlength : i.operands.length = op.operandCount) (hfinal : ∀ o ∈ i.operands, o.isFinal) :
    i.Final riscv32 :=
  ⟨op.fits hopcode hlength, hfinal⟩

theorem Op.final_on (op : Op) {operands : List Operand}
    (hlength : operands.length = op.operandCount) (hfinal : ∀ o ∈ operands, o.isFinal) :
    (op.on operands).Final riscv32 :=
  op.final rfl hlength hfinal

theorem Op.final_setOpcode (op : Op) (h : i.Allocated riscv32)
    (hlength : i.operands.length = op.operandCount) : (i.setOpcode op.opcode).Final riscv32 :=
  op.final rfl hlength h.final

section

variable (op : GenericOp) (h : site.instruction.Allocated riscv32)
include h

theorem yields_selectBinary (hlength : site.instruction.operands.length = 3) :
    Yields (Replacement.Final riscv32) (selectBinary site op) := by
  rw [selectBinary]
  refine .orFail_bind rfl fun forms hforms => ?_
  obtain ⟨inRegister, constant⟩ := forms
  have hcounts : inRegister.operandCount = 3 ∧ ∀ c, constant = some c → c.operandCount = 3 := by
    cases op <;> cases hforms <;> simp [Op.operandCount]
  refine .orFail_bind rfl fun second hsecond => ?_
  dsimp only
  split
  · exact .pure (.single (Op.final_setOpcode _ h (hlength.trans hcounts.1.symm)))
  · refine .orFail_bind rfl fun imm himm => ?_
    refine .orFail_bind rfl fun c hc => ?_
    have hlength := hlength.trans (hcounts.2 c hc).symm
    split
    · refine (yields_fitSigned (-imm)).bind fun negated _ => .pure (.single (c.final rfl ?_ ?_))
      · simpa using hlength
      · exact forall_mem_modify h.final _ fun o _ => rfl
    · exact .pure (.single (c.final_setOpcode h hlength))

theorem yields_selectCompare (hlength : site.instruction.operands.length = 3) :
    Yields (Replacement.Final riscv32) (selectCompare site) := by
  rw [selectCompare]
  refine .orFail_bind rfl fun second hsecond => ?_
  split
  · exact .pure (.single (Op.slt.final_setOpcode h hlength))
  · exact .pure (.single (Op.slti.final_setOpcode h hlength))
  · exact .pure (.single (Op.sltu.final_setOpcode h hlength))
  · exact .pure (.single (Op.sltiu.final_setOpcode h hlength))
  · exact .throw rfl

omit h in
theorem final_shiftPair {dest source : Operand} (hdest : dest.isFinal) (hsource : source.isFinal)
    (amount : Nat) {right : Op} (hright : right.operandCount = 3) :
    Replacement.Final riscv32 (shiftPair dest source amount right) := by
  refine ⟨Op.slli.final_on rfl ?_, ?_⟩
  · simp [hdest, hsource]
  · rw [shiftPair, List.forall_mem_singleton]
    refine right.final_on (by simp [hright]) ?_
    simp [hdest]

theorem yields_selectConversion (hlength : site.instruction.operands.length = 2) :
    Yields (Replacement.Final riscv32) (selectConversion site op) := by
  rw [selectConversion]
  refine .orFail_bind rfl fun dest hdest => ?_
  refine .orFail_bind rfl fun source hsource => ?_
  have hdest := Instruction.final_of_operand? h hdest
  have hsource := Instruction.final_of_operand? h hsource
  extract_lets destBits sourceBits kept
  split_ifs
  · exact .pure (.single (Op.mv.final_setOpcode h hlength))
  · exact .pure (final_shiftPair hdest hsource _ rfl)
  · refine .pure (.single (Op.andi.final_on rfl ?_))
    simp [hdest, hsource]
  · exact .pure (final_shiftPair hdest hsource _ rfl)

theorem yields_selectGlobalAddress :
    Yields (Replacement.Final riscv32) (selectGlobalAddress site) := by
  rw [selectGlobalAddress]
  refine .orFail_bind rfl fun dest hdest => ?_
  refine .orFail_bind rfl fun symbol hsymbol => ?_
  have hdest := Instruction.final_of_operand? h hdest
  have hsymbol := Instruction.final_of_operand? h hsymbol
  split
  · refine .pure ⟨Op.luiHi.final_on rfl (by simp [hdest, hsymbol]), ?_⟩
    rw [List.forall_mem_singleton]
    exact Op.addiLo.final_on rfl (by simp [hdest, hsymbol])
  · exact .throw rfl

theorem yields_selectBranch (hlength : site.instruction.operands.length ∈ [2, 3]) :
    Yields (Replacement.Final riscv32) (selectBranch site) := by
  unfold selectBranch
  extract_lets instr
  split
  · next hthree =>
    refine .ok ⟨Op.bnez.final rfl ?_ (forall_mem_eraseIdx h.final _), fun i hi => ?_⟩
    · rw [Instruction.operands_setOpcode, Instruction.operands_eraseOperand,
        List.length_eraseIdx_of_lt (by omega), hthree]
      rfl
    · obtain ⟨label, hlabel, rfl⟩ := List.mem_map.mp hi
      have hlabel := Instruction.final_of_operand? h (Option.mem_toList.mp hlabel)
      exact Op.j.final rfl rfl (by simpa [Op.on] using hlabel)
  · next hthree =>
    simp only [List.mem_cons, List.not_mem_nil, or_false] at hlength
    exact .ok (.single (Op.bnez.final_setOpcode h (hlength.resolve_right hthree)))

end

end Riscv

theorem Riscv.selects : Selects riscv32 := by
  intro site op hop h
  show Yields (Replacement.Final riscv32) (select site op)
  cases op with
  | add | sub | and | or | xor | lsl | lsr | mul | div | divu | mod | modu =>
    exact yields_selectBinary _ h (h.length_eq hop rfl)
  | cmp => exact yields_selectCompare h (h.length_eq hop rfl)
  | sext => exact yields_selectConversion .sext h (h.length_eq hop rfl)
  | zext => exact yields_selectConversion .zext h (h.length_eq hop rfl)
  | trunc => exact yields_selectConversion .trunc h (h.length_eq hop rfl)
  | loadImm => exact .pure (.single (Op.li.final_setOpcode h (h.length_eq hop rfl)))
  | mov =>
    refine .orFail_bind rfl fun source hsource => .pure (.single (Op.final_setOpcode _ h ?_))
    split <;> exact h.length_eq hop rfl
  | load =>
    refine .orFail_bind rfl fun dest hdest => .pure (.single (Op.final_setOpcode _ h ?_))
    rw [loadOp]
    split_ifs <;> exact h.length_eq hop rfl
  | store =>
    refine .orFail_bind rfl fun value hvalue => .pure (.single (Op.final_setOpcode _ h ?_))
    rw [storeOp]
    split_ifs <;> exact h.length_eq hop rfl
  | stackAddress => exact .pure (.single (Op.addi.final_setOpcode h (h.length_eq hop rfl)))
  | globalAddress => exact yields_selectGlobalAddress h
  | branch => exact yields_selectBranch h (h.length_mem hop)
  | jump => exact .pure (.single (Op.j.final_setOpcode h (h.length_eq hop rfl)))
  | call => exact .pure (.single (Op.call.final_setOpcode h (h.length_eq hop rfl)))
  | ret => exact .pure (.single (Op.ret.final rfl rfl (by simp)))
  | addf | subf | mulf | divf | cmpf | ftoi | itof | movf | zextLoad => exact .throw rfl

end Target

end Retarget
