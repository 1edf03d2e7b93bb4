import Mathlib.Tactic.SplitIfs
import Retarget.Proofs.Checked
import Retarget.Target.AArch64
import Retarget.Target.Riscv

/-!
# Native forms

What selection makes of an instruction, one case for each native form (`AArch64.Form`,
`Riscv.Form`).  Everything that is proved about selection for a target goes through these cases.
-/

namespace Retarget.Target

open Machine

/-! ## AArch64 -/

namespace AArch64

/-- The native forms of an operation, before registers are widened. -/
inductive Form (rs : Registers) (site : Site) : GenericOp → Replacement → Prop
  /-- The second source is a register. -/
  | register {op : GenericOp} {selected : Op} {constant : Option Op} {second : Operand}
      (hforms : binaryForms? op = some (selected, constant))
      (hsecond : site.instruction.operand? 2 = some second) (hphysical : second.isPhysical) :
      Form rs site op ⟨site.instruction.setOpcode selected.opcode, []⟩
  /-- The second source is a constant, or a part of the address of a symbol. -/
  | constant {op : GenericOp} {inRegister selected : Op} {second : Operand}
      (hforms : binaryForms? op = some (inRegister, some selected))
      (hsecond : site.instruction.operand? 2 = some second)
      (hconstant : second.isImmediate ∨ second.isGlobal) :
      Form rs site op ⟨site.instruction.setOpcode selected.opcode, []⟩
  /-- A compare leaves its result in the flags, and its destination is set from them. -/
  | compare {op : GenericOp} {selected : Op} {relation : Relation} {dest second : Operand}
      (hop : op = .cmp ∧ (selected = .cmpR ∧ second.isImmediate = false ∨
        selected = .cmpI ∧ second.isImmediate) ∨ op = .cmpf ∧ selected = .fcmp)
      (hdest : site.instruction.operand? 0 = some dest)
      (hsecond : site.instruction.operand? 2 = some second) :
      Form rs site op ⟨(site.instruction.setOpcode selected.opcode).eraseOperand 0,
        [((Op.setOn relation).on [dest]).withRelation relation]⟩
  /-- A compare is all that is left of a compare in front of a branch on it, if the code as it is
  shows no other read. -/
  | fused {op : GenericOp} {selected : Op} {dest second : Operand} {d : RegId} {next : Instruction}
      (hop : op = .cmp ∧ (selected = .cmpR ∧ second.isImmediate = false ∨
        selected = .cmpI ∧ second.isImmediate) ∨ op = .cmpf ∧ selected = .fcmp)
      (hdest : site.instruction.operand? 0 = some dest)
      (hsecond : site.instruction.operand? 2 = some second) (hd : dest.reg? = some d)
      (hnext : site.next? = some next) (hbranch : next.isGeneric .branch)
      (hcond : (next.operand? 0).bind (·.reg?) = some d)
      (hunread : isReadElsewhere rs site.function site.block site.stop d = false) :
      Form rs site op ⟨(site.instruction.setOpcode selected.opcode).eraseOperand 0, []⟩
  /-- A small constant is moved at once. -/
  | smallConstant {op : GenericOp} {dest source : Operand} {value small : Int}
      (hop : op = .loadImm ∨ op = .mov ∨ op = .movf)
      (hdest : site.instruction.operand? 0 = some dest)
      (hsource : site.instruction.operand? 1 = some source) (hvalue : source.immediate? = some value)
      (hsmall : -65536 ≤ small ∧ small ≤ 65535) :
      Form rs site op ⟨(site.instruction.setOpcode Op.movI.opcode).replaceOperand 1
        (.immediate small dest.ty), []⟩
  /-- Another constant is moved field by field. -/
  | wideConstant {op : GenericOp} {dest source : Operand} {constant value : Int}
      (hop : op = .loadImm ∨ op = .mov ∨ op = .movf)
      (hdest : site.instruction.operand? 0 = some dest)
      (hsource : site.instruction.operand? 1 = some source)
      (hvalue : source.immediate? = some constant) (hwidth : max dest.size 32 ≤ 64) :
      Form rs site op ⟨(site.instruction.setOpcode Op.movI.opcode).replaceOperand 1
          (.immediate (value % Word.modulus 16) dest.ty),
        (fieldShifts (max dest.size 32)).flatMap (moveField dest value)⟩
  | move {op : GenericOp} {selected : Op} (hop : op = .mov ∨ op = .movf)
      (hselected : selected = .movR ∨ selected = .fmov) :
      Form rs site op ⟨site.instruction.setOpcode selected.opcode, []⟩
  | load {dest : Operand} (hdest : site.instruction.operand? 0 = some dest) :
      Form rs site .load
        ⟨site.instruction.setOpcode (loadOp dest.size (isFloatReg rs dest)).opcode, []⟩
  /-- A load clears the upper half of the destination. -/
  | zextLoad {dest source : Operand} {width : Int} {reg : RegId}
      (hdest : site.instruction.operand? 0 = some dest)
      (hsource : site.instruction.operand? 1 = some source) (hwidth : source.immediate? = some width)
      (hreg : dest.reg? = some reg) :
      Form rs site .zextLoad ⟨((site.instruction.eraseOperand 1).setOpcode
        (loadOp (Word.low 32 width) false).opcode).modifyOperand 0 (narrowTo32 rs reg), []⟩
  | store {value : Operand} (hvalue : site.instruction.operand? 0 = some value)
      (hphysical : value.isPhysical) :
      Form rs site .store
        ⟨site.instruction.setOpcode (storeOp value.size (isFloatReg rs value)).opcode, []⟩
  /-- A conversion that one operation over the same operands does. -/
  | convert {op : GenericOp} {selected : Op}
      (hop : op = .sext ∨ op = .zext ∨ op = .trunc ∨ op = .itof ∨ op = .ftoi)
      (hselected : selected ∈ [Op.movR, .sxtb, .sxth, .sxtw, .scvtf, .fcvtzs]) :
      Form rs site op ⟨site.instruction.setOpcode selected.opcode, []⟩
  /-- A zero extension writes the 32-bit view of its destination. -/
  | extend {selected : Op} {dest : Operand} {reg : RegId}
      (hselected : selected ∈ [Op.uxtb, .uxth, .movR])
      (hdest : site.instruction.operand? 0 = some dest) (hreg : dest.reg? = some reg) :
      Form rs site .zext
        ⟨(site.instruction.modifyOperand 0 (narrowTo32 rs reg)).setOpcode selected.opcode, []⟩
  /-- A truncation to less than 32 bits is a mask. -/
  | mask {dest source : Operand} (hdest : site.instruction.operand? 0 = some dest)
      (hsource : site.instruction.operand? 1 = some source) (hnarrow : dest.size < 32) :
      Form rs site .trunc ⟨(site.instruction.push
        (.immediate (Word.modulus dest.size - 1 : Nat) dest.ty)).setOpcode Op.andI.opcode, []⟩
  | stackAddress : Form rs site .stackAddress ⟨site.instruction.setOpcode Op.addI.opcode, []⟩
  /-- A branch, and perhaps a jump behind it. -/
  | branch {r : Replacement} (h : selectBranch site = .ok r) : Form rs site .branch r
  | jump : Form rs site .jump ⟨site.instruction.setOpcode Op.b.opcode, []⟩
  | call : Form rs site .call ⟨site.instruction.setOpcode Op.bl.opcode, []⟩
  | ret : Form rs site .ret ⟨(site.instruction.setOpcode Op.ret.opcode).withOperands [], []⟩

variable {rs : Registers} {site : Site} {op : GenericOp} {r : Replacement}

theorem selectBinary_eq_ok (h : selectBinary site op = .ok r) : Form rs site op r := by
  obtain ⟨forms, hforms, h⟩ := bind_eq_ok.mp h
  obtain ⟨inRegister, constant⟩ := forms
  obtain ⟨second, hsecond, h⟩ := bind_eq_ok.mp h
  rw [orFail_eq_ok] at hforms
  dsimp only at h
  split at h
  · next hphysical =>
    cases h
    exact .register hforms (orFail_eq_ok.mp hsecond) hphysical
  · split at h
    · next hconstant =>
      obtain ⟨selected, hselected, h⟩ := bind_eq_ok.mp h
      cases orFail_eq_ok.mp hselected
      cases h
      exact .constant hforms (orFail_eq_ok.mp hsecond) (by simpa using hconstant)
    · cases h

theorem selectCompare_eq_ok (isFloat : Bool) (hop : op = if isFloat then .cmpf else .cmp)
    (h : selectCompare rs site isFloat = .ok r) : Form rs site op r := by
  obtain ⟨relation, -, h⟩ := bind_eq_ok.mp h
  obtain ⟨dest, hdest, h⟩ := bind_eq_ok.mp h
  obtain ⟨second, hsecond, h⟩ := bind_eq_ok.mp h
  rw [Site.operand, orFail_eq_ok] at hdest hsecond
  dsimp only at h
  generalize hfeeds : ((site.next?.any fun next => next.isGeneric .branch &&
      (next.operand? 0).bind (·.reg?) == dest.reg?) && dest.reg?.any fun reg =>
        !isReadElsewhere rs site.function site.block site.stop reg) = feeds at h
  have hform : ∀ selected : Op, (op = .cmp ∧ (selected = .cmpR ∧ second.isImmediate = false ∨
        selected = .cmpI ∧ second.isImmediate) ∨ op = .cmpf ∧ selected = .fcmp) →
      Form rs site op ⟨(site.instruction.setOpcode selected.opcode).eraseOperand 0,
        if feeds then [] else [((Op.setOn relation).on [dest]).withRelation relation]⟩ := by
    intro selected hop
    cases feeds with
    | false => exact .compare hop hdest hsecond
    | true =>
      rw [Bool.and_eq_true, Option.any_eq_true, Option.any_eq_true] at hfeeds
      obtain ⟨⟨next, hnext, hbranch⟩, d, hd, hunread⟩ := hfeeds
      rw [Bool.and_eq_true, beq_iff_eq, hd] at hbranch
      exact .fused hop hdest hsecond hd hnext hbranch.1 hbranch.2 (by simpa using hunread)
  subst hop
  generalize himm : second.isImmediate = constant at h
  cases isFloat <;> cases constant <;> cases h
  · exact hform _ (.inl ⟨rfl, .inl ⟨rfl, himm⟩⟩)
  · exact hform _ (.inl ⟨rfl, .inr ⟨rfl, himm⟩⟩)
  · exact hform _ (.inr ⟨rfl, rfl⟩)

theorem selectConstant_eq_ok (hop : op = .loadImm ∨ op = .mov ∨ op = .movf)
    (h : selectConstant site = .ok r) : Form rs site op r := by
  obtain ⟨dest, hdest, h⟩ := bind_eq_ok.mp h
  obtain ⟨source, hsource, h⟩ := bind_eq_ok.mp h
  obtain ⟨constant, hconstant, h⟩ := bind_eq_ok.mp h
  rw [Site.operand, orFail_eq_ok] at hdest hsource
  rw [orFail_eq_ok] at hconstant
  extract_lets width value small move at h
  split at h
  · next hsmall =>
    cases h
    exact .smallConstant hop hdest hsource hconstant hsmall
  · split at h
    · cases h
    · next hwidth =>
      cases h
      exact .wideConstant hop hdest hsource hconstant (Nat.le_of_not_lt hwidth)

theorem selectMove_eq_ok (hop : op = .mov ∨ op = .movf) (h : selectMove rs site = .ok r) :
    Form rs site op r := by
  obtain ⟨source, -, h⟩ := bind_eq_ok.mp h
  split at h
  · exact selectConstant_eq_ok (.inr hop) h
  · obtain ⟨dest, -, h⟩ := bind_eq_ok.mp h
    cases h
    refine .move hop ?_
    split
    · exact .inr rfl
    · exact .inl rfl

theorem selectConversion_eq_ok
    (h : selectConversion rs site op = .ok r) : Form rs site op r := by
  obtain ⟨dest, hdest, h⟩ := bind_eq_ok.mp h
  obtain ⟨source, hsource, h⟩ := bind_eq_ok.mp h
  rw [Site.operand, orFail_eq_ok] at hdest hsource
  dsimp only at h
  split at h
  · cases h
    refine .convert (.inl rfl) ?_
    split_ifs <;> simp
  · split at h
    · cases h
      exact .convert (.inr (.inl rfl)) (by simp)
    · obtain ⟨reg, hreg, h⟩ := bind_eq_ok.mp h
      cases h
      refine .extend ?_ hdest (orFail_eq_ok.mp hreg)
      split_ifs <;> simp
  · split at h
    · cases h
      exact .convert (.inr (.inr (.inl rfl))) (by simp)
    · next hnarrow =>
      cases h
      exact .mask hdest hsource (Nat.lt_of_not_le hnarrow)
  · cases h
    exact .convert (by simp) (by simp)
  · cases h
    exact .convert (by simp) (by simp)
  · cases h

/-- **Every instruction is selected in one of the forms.** -/
theorem selectForm_eq_ok (h : selectForm rs site op = .ok r) : Form rs site op r := by
  cases op with
  | add | sub | and | or | xor | lsl | lsr | mul | div | divu | addf | subf | mulf | divf =>
    exact selectBinary_eq_ok h
  | cmp => exact selectCompare_eq_ok false rfl h
  | cmpf => exact selectCompare_eq_ok true rfl h
  | sext | zext | trunc | itof | ftoi => exact selectConversion_eq_ok h
  | loadImm => exact selectConstant_eq_ok (.inl rfl) h
  | mov => exact selectMove_eq_ok (.inl rfl) h
  | movf => exact selectMove_eq_ok (.inr rfl) h
  | load =>
    obtain ⟨dest, hdest, h⟩ := bind_eq_ok.mp h
    cases h
    exact .load (orFail_eq_ok.mp hdest)
  | zextLoad =>
    obtain ⟨dest, hdest, h⟩ := bind_eq_ok.mp h
    obtain ⟨source, hsource, h⟩ := bind_eq_ok.mp h
    obtain ⟨width, hwidth, h⟩ := bind_eq_ok.mp h
    obtain ⟨reg, hreg, h⟩ := bind_eq_ok.mp h
    cases h
    exact .zextLoad (orFail_eq_ok.mp hdest) (orFail_eq_ok.mp hsource) (orFail_eq_ok.mp hwidth)
      (orFail_eq_ok.mp hreg)
  | store =>
    obtain ⟨value, hvalue, h⟩ := bind_eq_ok.mp h
    split at h
    · next hphysical =>
      cases h
      exact .store (orFail_eq_ok.mp hvalue) hphysical
    · cases h
  | stackAddress =>
    cases h
    exact .stackAddress
  | branch => exact .branch h
  | jump =>
    cases h
    exact .jump
  | call =>
    cases h
    exact .call
  | ret =>
    cases h
    exact .ret
  | mod | modu | globalAddress => cases h

theorem exists_jump_of_selectBranch (h : selectBranch site = .ok r) :
    ∀ j ∈ r.first :: r.rest, ∃ selected : Op, selected.flags.jump ∧ j.opcode = selected.opcode := by
  unfold selectBranch at h
  extract_lets instr cond relation falseTarget taken branch at h
  cases h
  rw [List.forall_mem_cons]
  refine ⟨?_, fun j hj => ?_⟩
  · cases hrelation : relation with
    | none => exact ⟨.cbnz, rfl, by simp only [branch, hrelation]; rfl⟩
    | some relation =>
      exact ⟨Op.branchOn relation, by cases relation <;> rfl, by simp only [branch, hrelation]; rfl⟩
  · obtain ⟨label, -, rfl⟩ := List.mem_map.mp hj
    exact ⟨.b, rfl, rfl⟩

theorem select_eq_ok (h : select rs site op = .ok r) :
    ∃ form, Form rs site op form ∧ r = { form with first := widenRegisters form.first } := by
  obtain ⟨form, hform, h⟩ := bind_eq_ok.mp h
  exact ⟨form, selectForm_eq_ok hform, (pure_eq_ok.mp h).symm⟩

end AArch64

/-! ## RV32 -/

namespace Riscv

/-- The native forms of an operation. -/
inductive Form (site : Site) : GenericOp → Replacement → Prop
  /-- The second source is a register. -/
  | register {op : GenericOp} {selected : Op} {constant : Option Op} {second : Operand}
      (hforms : binaryForms? op = some (selected, constant))
      (hsecond : site.instruction.operand? 2 = some second) (hphysical : second.isPhysical) :
      Form site op ⟨site.instruction.setOpcode selected.opcode, []⟩
  | constant {op : GenericOp} {inRegister selected : Op} {second : Operand} {value : Int}
      (hforms : binaryForms? op = some (inRegister, some selected)) (hop : op ≠ .sub)
      (hsecond : site.instruction.operand? 2 = some second)
      (hvalue : second.immediate? = some value) :
      Form site op ⟨site.instruction.setOpcode selected.opcode, []⟩
  /-- A subtraction of a constant adds its inverse. -/
  | subtract {second : Operand} {value : Int}
      (hsecond : site.instruction.operand? 2 = some second)
      (hvalue : second.immediate? = some value) :
      Form site .sub ⟨(site.instruction.setOpcode Op.addi.opcode).modifyOperand 2
        (·.setImmediate (-value)), []⟩
  | compare {selected : Op} {second : Operand}
      (hsecond : site.instruction.operand? 2 = some second)
      (hselected : (selected = .slt ∨ selected = .sltu) ∧ second.isImmediate = false ∨
        (selected = .slti ∨ selected = .sltiu) ∧ second.isImmediate) :
      Form site .cmp ⟨site.instruction.setOpcode selected.opcode, []⟩
  /-- A conversion that keeps all bits. -/
  | convert {op : GenericOp} (hop : op = .sext ∨ op = .zext ∨ op = .trunc) :
      Form site op ⟨site.instruction.setOpcode Op.mv.opcode, []⟩
  /-- A sign extension shifts up and down. -/
  | signed {dest source : Operand} (hdest : site.instruction.operand? 0 = some dest)
      (hsource : site.instruction.operand? 1 = some source) (hnarrow : source.size < 32) :
      Form site .sext (shiftPair dest source (32 - source.size) .srai)
  /-- Many bits are kept by shifting up and down. -/
  | unsigned {op : GenericOp} {dest source : Operand} {kept : Nat} (hop : op = .zext ∨ op = .trunc)
      (hdest : site.instruction.operand? 0 = some dest)
      (hsource : site.instruction.operand? 1 = some source) (hkept : 11 < kept ∧ kept < 32) :
      Form site op (shiftPair dest source (32 - kept) .srli)
  /-- Few bits are kept by a mask. -/
  | mask {op : GenericOp} {dest source : Operand} {kept : Nat} (hop : op = .zext ∨ op = .trunc)
      (hdest : site.instruction.operand? 0 = some dest)
      (hsource : site.instruction.operand? 1 = some source) (hkept : kept ≤ 11) :
      Form site op
        ⟨Op.andi.on [dest, source, .immediate (Word.modulus kept - 1 : Nat) dest.ty], []⟩
  | move {op : GenericOp} {selected : Op} (hop : op = .loadImm ∨ op = .mov)
      (hselected : selected = .li ∨ selected = .mv) :
      Form site op ⟨site.instruction.setOpcode selected.opcode, []⟩
  | load {dest : Operand} (hdest : site.instruction.operand? 0 = some dest) :
      Form site .load ⟨site.instruction.setOpcode (loadOp dest.size).opcode, []⟩
  | store {value : Operand} (hvalue : site.instruction.operand? 0 = some value) :
      Form site .store ⟨site.instruction.setOpcode (storeOp value.size).opcode, []⟩
  | stackAddress : Form site .stackAddress ⟨site.instruction.setOpcode Op.addi.opcode, []⟩
  /-- The address of a symbol comes in two parts. -/
  | globalAddress {dest symbol : Operand} (hdest : site.instruction.operand? 0 = some dest)
      (hsymbol : site.instruction.operand? 1 = some symbol) (hglobal : symbol.isGlobal) :
      Form site .globalAddress ⟨Op.luiHi.on [dest, symbol], [Op.addiLo.on [dest, dest, symbol]]⟩
  /-- A branch, and perhaps a jump behind it. -/
  | branch {r : Replacement} (h : selectBranch site = .ok r) : Form site .branch r
  | jump : Form site .jump ⟨site.instruction.setOpcode Op.j.opcode, []⟩
  | call : Form site .call ⟨site.instruction.setOpcode Op.call.opcode, []⟩
  | ret : Form site .ret ⟨(site.instruction.setOpcode Op.ret.opcode).withOperands [], []⟩

variable {site : Site} {op : GenericOp} {r : Replacement}

theorem selectBinary_eq_ok (h : selectBinary site op = .ok r) : Form site op r := by
  obtain ⟨forms, hforms, h⟩ := bind_eq_ok.mp h
  obtain ⟨inRegister, constant⟩ := forms
  obtain ⟨second, hsecond, h⟩ := bind_eq_ok.mp h
  rw [orFail_eq_ok] at hforms
  rw [Site.operand, orFail_eq_ok] at hsecond
  dsimp only at h
  split at h
  · next hphysical =>
    cases h
    exact .register hforms hsecond hphysical
  · obtain ⟨value, hvalue, h⟩ := bind_eq_ok.mp h
    obtain ⟨selected, hselected, h⟩ := bind_eq_ok.mp h
    rw [orFail_eq_ok.mp hselected] at hforms
    split at h
    · next hop =>
      obtain ⟨negated, hnegated, h⟩ := bind_eq_ok.mp h
      rw [Word.fitSigned] at hnegated
      split at hnegated
      · cases hnegated
        cases h
        rw [hop] at hforms ⊢
        cases hforms
        exact .subtract hsecond (orFail_eq_ok.mp hvalue)
      · cases hnegated
    · next hop =>
      cases h
      exact .constant hforms hop hsecond (orFail_eq_ok.mp hvalue)

theorem selectCompare_eq_ok (h : selectCompare site = .ok r) : Form site .cmp r := by
  obtain ⟨second, hsecond, h⟩ := bind_eq_ok.mp h
  rw [Site.operand, orFail_eq_ok] at hsecond
  generalize himm : second.isImmediate = constant at h
  dsimp only at h
  split at h
  · cases h
    exact .compare hsecond (.inl ⟨.inl rfl, himm⟩)
  · cases h
    exact .compare hsecond (.inr ⟨.inl rfl, himm⟩)
  · cases h
    exact .compare hsecond (.inl ⟨.inr rfl, himm⟩)
  · cases h
    exact .compare hsecond (.inr ⟨.inr rfl, himm⟩)
  · cases h

theorem selectConversion_eq_ok (hop : op = .sext ∨ op = .zext ∨ op = .trunc)
    (h : selectConversion site op = .ok r) : Form site op r := by
  obtain ⟨dest, hdest, h⟩ := bind_eq_ok.mp h
  obtain ⟨source, hsource, h⟩ := bind_eq_ok.mp h
  rw [Site.operand, orFail_eq_ok] at hdest hsource
  extract_lets destBits sourceBits kept at h
  split at h
  · cases h
    exact .convert hop
  · next hnarrow =>
    have hkept : kept < 32 := by
      simp only [Bool.or_eq_true, decide_eq_true_eq, not_or] at hnarrow
      exact Nat.lt_of_not_le hnarrow.1
    split at h
    · next hsext =>
      subst hsext
      cases h
      have hsize : kept = source.size := by
        simp only [kept, sourceBits, reduceCtorEq, if_false] at hkept ⊢
        omega
      rw [hsize] at hkept ⊢
      exact .signed hdest hsource hkept
    · next hsext =>
      have hop := hop.resolve_left hsext
      split at h
      · next hfew =>
        cases h
        exact .mask hop hdest hsource hfew
      · next hmany =>
        cases h
        exact .unsigned hop hdest hsource ⟨Nat.lt_of_not_le hmany, hkept⟩

/-- **Every instruction is selected in one of the forms.** -/
theorem select_eq_ok (h : select site op = .ok r) : Form site op r := by
  cases op with
  | add | sub | and | or | xor | lsl | lsr | mul | div | divu | mod | modu =>
    exact selectBinary_eq_ok h
  | cmp => exact selectCompare_eq_ok h
  | sext => exact selectConversion_eq_ok (.inl rfl) h
  | zext => exact selectConversion_eq_ok (.inr (.inl rfl)) h
  | trunc => exact selectConversion_eq_ok (.inr (.inr rfl)) h
  | loadImm =>
    cases h
    exact .move (.inl rfl) (.inl rfl)
  | mov =>
    obtain ⟨source, -, h⟩ := bind_eq_ok.mp h
    cases h
    refine .move (.inr rfl) ?_
    split
    · exact .inl rfl
    · exact .inr rfl
  | load =>
    obtain ⟨dest, hdest, h⟩ := bind_eq_ok.mp h
    cases h
    exact .load (orFail_eq_ok.mp hdest)
  | store =>
    obtain ⟨value, hvalue, h⟩ := bind_eq_ok.mp h
    cases h
    exact .store (orFail_eq_ok.mp hvalue)
  | stackAddress =>
    cases h
    exact .stackAddress
  | globalAddress =>
    obtain ⟨dest, hdest, h⟩ := bind_eq_ok.mp h
    obtain ⟨symbol, hsymbol, h⟩ := bind_eq_ok.mp h
    split at h
    · next hglobal =>
      cases h
      exact .globalAddress (orFail_eq_ok.mp hdest) (orFail_eq_ok.mp hsymbol) hglobal
    · cases h
  | branch => exact .branch h
  | jump =>
    cases h
    exact .jump
  | call =>
    cases h
    exact .call
  | ret =>
    cases h
    exact .ret
  | addf | subf | mulf | divf | cmpf | ftoi | itof | movf | zextLoad => cases h

theorem exists_jump_of_selectBranch (h : selectBranch site = .ok r) :
    ∀ j ∈ r.first :: r.rest, ∃ selected : Op, selected.flags.jump ∧ j.opcode = selected.opcode := by
  unfold selectBranch at h
  extract_lets instr at h
  split at h
  · cases h
    refine List.forall_mem_cons.mpr ⟨⟨.bnez, rfl, rfl⟩, fun j hj => ?_⟩
    obtain ⟨label, -, rfl⟩ := List.mem_map.mp hj
    exact ⟨.j, rfl, rfl⟩
  · cases h
    exact List.forall_mem_cons.mpr ⟨⟨.bnez, rfl, rfl⟩, by simp⟩

end Riscv

end Retarget.Target
