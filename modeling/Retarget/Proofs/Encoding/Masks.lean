import Mathlib.Data.Int.Notation
import Retarget.Proofs.Encoding.Immediates

/-!
# Masks that are too wide

Legalization decides by the low bits of a constant whether it is a mask.  What it takes for one
stays in its place up to native code, where all bits of it are written out, so it cannot be encoded
if it does not fit the register (`Arch.wideMask?_of_encodable`).  No pass makes such a constant or
takes one away.  So the constants of native code can be encoded exactly if the lowered code has none
of them (`constants_encodable_iff`).
-/

namespace Retarget

open Machine Target

/-- The masks of a function that are too wide for their registers. -/
def Machine.Function.wideMasks (a : Arch) (f : Function) : List Int :=
  f.instructions.filterMap a.wideMask?

/-- The operation works bit by bit. -/
def Machine.GenericOp.IsBitwise (op : GenericOp) : Prop := op = .and ∨ op = .or ∨ op = .xor

instance (op : GenericOp) : Decidable op.IsBitwise := inferInstanceAs (Decidable (_ ∨ _))

namespace Arch

variable {a : Arch} {i j : Instruction} {op : GenericOp}

theorem wideMask?_of_generic (op : GenericOp) (hop : i.generic? = some op)
    (hplain : ¬op.IsBitwise) : a.wideMask? i = none := by
  cases a with
  | riscv32 => rfl
  | aarch64 =>
    have hnone : AArch64.maskBits? i = none := by
      rw [AArch64.maskBits?, Instruction.generic?_eq_some hop]
      cases op <;> first | rfl | exact absurd (by decide) hplain
    rw [wideMask?, hnone]
    rfl

theorem wideMasks_riscv32 (is : List Instruction) : is.filterMap Arch.riscv32.wideMask? = [] :=
  List.filterMap_eq_nil_iff.mpr fun _ _ => rfl

theorem wideMask?_of_bitwise (hop : i.generic? = some op) (hbitwise : op.IsBitwise) :
    Arch.aarch64.wideMask? i = (i.constant? 2).filter
      (AArch64.isWideMask (AArch64.registerWidth (AArch64.destWidth i))) := by
  have hbits : AArch64.maskBits? i = some (AArch64.registerWidth (AArch64.destWidth i)) := by
    rw [AArch64.maskBits?, Instruction.generic?_eq_some hop]
    rcases hbitwise with rfl | rfl | rfl <;> rfl
  rw [wideMask?, hbits]
  rfl

theorem wideMask?_of_unselected (h : i.Unselected a) (hnative : i.generic? = none) :
    a.wideMask? i = none := by
  obtain ⟨rfl, hadrp⟩ := h hnative
  exact AArch64.Op.adrp.wideMask?_eq_none hadrp rfl

theorem wideMask?_keeps {t : Target} (hop : i.generic? = some op) (hcode : j.opcode = i.opcode)
    (h : List.Forall₂ (Operand.Keeps t) i.operands j.operands) :
    a.wideMask? j = a.wideMask? i := by
  have hop' : j.generic? = some op := (congrArg Opcode.generic? hcode).trans hop
  by_cases hbitwise : op.IsBitwise
  · cases a with
    | riscv32 => rfl
    | aarch64 =>
      have hconstant : j.constant? 2 = i.constant? 2 := Instruction.secondImmediate?_keeps h
      rw [wideMask?_of_bitwise hop hbitwise, wideMask?_of_bitwise hop' hbitwise,
        Instruction.destWidth_keeps h, hconstant]
  · rw [wideMask?_of_generic _ hop hbitwise, wideMask?_of_generic _ hop' hbitwise]

theorem wideMask?_recast (h : i.Recast j) : a.wideMask? j = a.wideMask? i := by
  cases hcode : i.opcode with
  | generic op =>
    exact wideMask?_keeps (t := a.target) (congrArg Opcode.generic? hcode) h.opcode h.keeps
  | native number =>
    cases a with
    | riscv32 => rfl
    | aarch64 =>
      refine AArch64.wideMask?_congr hcode h.opcode ?_ ?_
      · rcases Instruction.operand?_of_forall₂ h.operands 0 with
          ⟨ho, ho'⟩ | ⟨o, o', ho, ho', hkind, -⟩
        · rw [ho, ho']
        · rw [ho, ho', registerBits, registerBits, Option.bind_some, Option.bind_some,
            Operand.reg?, Operand.reg?, hkind]
      · rcases Instruction.operand?_of_forall₂ h.operands 2 with
          ⟨ho, ho'⟩ | ⟨o, o', ho, ho', hkind, -⟩
        · rw [Instruction.constant?, Instruction.constant?, ho, ho']
        · rw [Instruction.constant?, Instruction.constant?, ho, ho', Option.bind_some,
            Option.bind_some, Operand.immediate?, Operand.immediate?, hkind]

end Arch

namespace Target

variable {f g : Function} {b k : Nat} {i : Instruction} {op : GenericOp}

/-! ## Legalization -/

/-- What is not bitwise is not rewritten to code with masks. -/
theorem Rewrite.wideMask?_eq_none {next used : Nat} {new : List Instruction}
    (h : Rewrite .aarch64 next i used new) (hop : i.generic? = some op) (hplain : ¬op.IsBitwise) :
    ∀ j ∈ new, Arch.aarch64.wideMask? j = none := by
  cases h with
  | @materialize op' n imm hop' =>
    cases hop.symm.trans hop'
    have hself : Arch.aarch64.wideMask? (i.replaceOperand n (.virtualReg next imm.ty)) = none :=
      Arch.wideMask?_of_generic _ hop hplain
    exact List.forall_mem_cons.mpr ⟨Arch.wideMask?_of_generic .loadImm rfl (by decide),
      List.forall_mem_singleton.mpr hself⟩
  | convert =>
    exact List.forall_mem_singleton.mpr (Arch.wideMask?_of_generic .loadImm rfl (by decide))
  | remainder ha hop' hdivision =>
    refine List.forall_mem_cons.mpr ⟨Arch.wideMask?_of_generic _ rfl ?_, List.forall_mem_cons.mpr
      ⟨Arch.wideMask?_of_generic .mul rfl (by decide), List.forall_mem_singleton.mpr
        (Arch.wideMask?_of_generic .sub rfl (by decide))⟩⟩
    rcases hdivision with ⟨-, rfl⟩ | ⟨-, rfl⟩ <;> decide
  | @flip _ flipped _ _ _ ha hop' hflipped =>
    refine List.forall_mem_singleton.mpr (Arch.wideMask?_of_generic flipped rfl ?_)
    rcases hflipped with ⟨-, rfl⟩ | ⟨-, rfl⟩ <;> decide
  | address =>
    exact List.forall_mem_cons.mpr ⟨AArch64.Op.adrp.wideMask?_eq_none rfl rfl,
      List.forall_mem_singleton.mpr (Arch.wideMask?_of_generic .add rfl (by decide))⟩
  | swap ha | notLess ha | equal ha | different ha => cases ha

/-- A bitwise operation is expanded by loading a constant that stands first, or one that is no
mask. -/
theorem AArch64.replaces_of_expand (hi : f.instruction? b k = some i) (hop : i.generic? = some op)
    (hbitwise : op.IsBitwise) (hlegal : AArch64.isLegal f b k = false)
    (h : AArch64.expand f b k = .ok g) :
    ∃ n imm, (n = 1 ∨ n = 2 ∧ Arch.aarch64.wideMask? i = none) ∧
      f.Replaces b k [i] [loadImmediate (.virtualReg f.nextId imm.ty) imm,
        i.replaceOperand n (.virtualReg f.nextId imm.ty)] g := by
  have hconversion : i.isConstantConversion = false := by
    rw [Instruction.isConstantConversion, hop]
    rcases hbitwise with rfl | rfl | rfl <;> rfl
  rw [AArch64.expand, hi] at h
  by_cases hfirst : i.hasImmediateFirstSource
  · replace h : materialize f b k 1 = .ok g := by simpa [orFail, ok_bind, hfirst] using h
    obtain ⟨imm, -, -, hreplaces, -⟩ := replaces_of_materialize hi h
    exact ⟨1, imm, .inl rfl, hreplaces⟩
  · have hmaterialize : materialize f b k 2 = .ok g := by
      rcases hbitwise with rfl | rfl | rfl <;>
        simpa [orFail, ok_bind, hfirst, hconversion, hop] using h
    have hnone : Arch.aarch64.wideMask? i = none := by
      have hnot : (i.constant? 2).all (AArch64.isLogicalImmediate · (AArch64.destWidth i)) =
          false := by
        show (i.secondImmediate?).all _ = false
        rcases hbitwise with rfl | rfl | rfl <;>
          simpa [AArch64.isLegal, hi, hop, hfirst, hconversion] using hlegal
      rw [Arch.wideMask?_of_bitwise hop hbitwise, Option.filter_eq_none_iff]
      intro n hn hwide
      rw [hn, Option.all_some, ← AArch64.isLogicalImmediate_registerWidth] at hnot
      rw [AArch64.isWideMask, hnot] at hwide
      cases hwide
    obtain ⟨imm, -, -, hreplaces, -⟩ := replaces_of_materialize hi hmaterialize
    exact ⟨2, imm, .inr ⟨rfl, hnone⟩, hreplaces⟩

/-- A bitwise operation that takes a constant from a register has no other mask than before. -/
theorem filterMap_materialized {next n : Nat} {imm : Operand} (hop : i.generic? = some op)
    (hbitwise : op.IsBitwise) (hn : n = 1 ∨ n = 2 ∧ Arch.aarch64.wideMask? i = none) :
    [loadImmediate (.virtualReg next imm.ty) imm,
      i.replaceOperand n (.virtualReg next imm.ty)].filterMap Arch.aarch64.wideMask? =
        [i].filterMap Arch.aarch64.wideMask? := by
  have hload : Arch.aarch64.wideMask? (loadImmediate (.virtualReg next imm.ty) imm) = none :=
    Arch.wideMask?_of_generic .loadImm rfl (by decide)
  have hoperand : ∀ k, (i.replaceOperand n (.virtualReg next imm.ty)).operand? k =
      (i.operands.set n (.virtualReg next imm.ty))[k]? := fun k => rfl
  have hsame : Arch.aarch64.wideMask? (i.replaceOperand n (.virtualReg next imm.ty)) =
      Arch.aarch64.wideMask? i := by
    rcases hn with rfl | ⟨rfl, hnone⟩
    · have hwidth : AArch64.destWidth (i.replaceOperand 1 (.virtualReg next imm.ty)) =
          AArch64.destWidth i := by
        rw [AArch64.destWidth, hoperand, List.getElem?_set_ne (by decide)]
        rfl
      have hconstant : (i.replaceOperand 1 (.virtualReg next imm.ty)).constant? 2 =
          i.constant? 2 := by
        rw [Instruction.constant?, hoperand, List.getElem?_set_ne (by decide)]
        rfl
      rw [Arch.wideMask?_of_bitwise hop hbitwise,
        Arch.wideMask?_of_bitwise (i := i.replaceOperand 1 _) hop hbitwise, hwidth, hconstant]
    · have hconstant : (i.replaceOperand 2 (.virtualReg next imm.ty)).constant? 2 = none := by
        rw [Instruction.constant?, hoperand, List.getElem?_set_self']
        cases i.operands[2]? <;> rfl
      rw [hnone, Arch.wideMask?_of_bitwise (i := i.replaceOperand 2 _) hop hbitwise, hconstant]
      rfl
  rw [List.filterMap_cons, hload]
  simp only [List.filterMap_cons, hsame]

end Target

namespace Machine.Function

variable {a : Arch} {f g : Function} {i j : Instruction}

/-- **Legalization keeps the masks that are too wide.** -/
theorem wideMasks_legalize (h : f.legalize a.target = .ok g) : g.wideMasks a = f.wideMasks a := by
  refine KeptBy.legalize (R := fun _ _ g => g.wideMasks a = f.wideMasks a)
    ⟨?_, fun hR _ => hR, fun hR _ => hR⟩ rfl h
  rintro g g' b k i hsame hi hlegal hexpandable hexpand
  refine Eq.trans ?_ hsame
  cases a with
  | riscv32 => rw [wideMasks, wideMasks, Arch.wideMasks_riscv32, Arch.wideMasks_riscv32]
  | aarch64 =>
    rcases Arch.expand_cases hi hlegal hexpandable hexpand with
      ⟨used, new, hrewrite, hreplaces, -⟩ | ⟨-, load, dest, source, loaded, extra, rest, r, hfolds⟩
    · obtain ⟨op, hop, -⟩ := hrewrite.exists_generic?
      by_cases hbitwise : op.IsBitwise
      · obtain ⟨n, imm, hn, hreplaces⟩ := AArch64.replaces_of_expand hi hop hbitwise hlegal hexpand
        exact hreplaces.filterMap_instructions (filterMap_materialized hop hbitwise hn)
      · refine hreplaces.filterMap_instructions ?_
        rw [List.filterMap_eq_nil_iff.mpr (hrewrite.wideMask?_eq_none hop hbitwise),
          List.filterMap_cons, Arch.wideMask?_of_generic _ hop hbitwise]
        rfl
    · refine hfolds.replaces.2.filterMap_instructions ?_
      have hload : load.generic? = some .load := congrArg Opcode.generic? hfolds.isLoad
      have hnew : Arch.aarch64.wideMask? (extendingLoad load dest loaded rest) = none :=
        Arch.wideMask?_of_generic .zextLoad rfl (by decide)
      simp only [List.filterMap_cons, hnew, Arch.wideMask?_of_generic _ hload (by decide),
        Arch.wideMask?_of_generic _ hfolds.isZext (by decide), List.filterMap_nil]

theorem wideMasks_selectClasses (t : Target) (f : Function) :
    (f.selectClasses t).wideMasks a = f.wideMasks a :=
  filterMap_instructions (fun _ _ => Arch.wideMask?_recast) (recast_selectClasses t f)

/-! ## Allocation -/

theorem wideMask?_placeInstruction {assigned : List (RegId × RegId)} {slots : List Slot}
    (hassigned : ∀ id root, assigned.lookup id = some root → root ∈ a.target.homes)
    (hi : i.Ready a) (hshaped : i.Shaped a.target slots)
    (h : placeInstruction a.target f assigned i = .ok j) : a.wideMask? j = a.wideMask? i := by
  have hcode := opcode_placeInstruction h
  cases hop : i.generic? with
  | none =>
    have hj : j.Unselected a := fun _ => by
      rw [hcode]
      exact hi.unselected hop
    rw [Arch.wideMask?_of_unselected hi.unselected hop,
      Arch.wideMask?_of_unselected hj ((congrArg Opcode.generic? hcode).trans hop)]
  | some op =>
    by_cases hbitwise : op.IsBitwise
    · have hplace : true ∉ i.layout := by
        have hlayout := hshaped.layout_mem (Instruction.generic?_eq_some hop)
        rcases hbitwise with rfl | rfl | rfl <;>
        · simp only [GenericOp.layouts, List.mem_singleton] at hlayout
          simp [hlayout]
      exact Arch.wideMask?_keeps hop hcode ((operands_placeInstruction hplace h).imp
        fun o o' => keeps_placeOperand hassigned)
    · rw [Arch.wideMask?_of_generic _ hop hbitwise,
        Arch.wideMask?_of_generic _ ((congrArg Opcode.generic? hcode).trans hop) hbitwise]

/-- **Allocation keeps the masks that are too wide.** -/
theorem wideMasks_allocateRegisters (hf : f.All (·.Ready a)) (huntouched : f.Untouched a)
    (hshaped : f.All (·.Shaped a.target f.slots)) (h : f.allocateRegisters a.target = .ok g) :
    g.wideMasks a = f.wideMasks a := by
  obtain ⟨alloc, f', blocks, hassign, rfl, hblocks⟩ := exists_placed_of_allocateRegisters h
  have hready := ready_assignRegisters hf hassign
  have hshaped' := shaped_assignRegisters a.regular hshaped hassign
  have hmoves : f'.instructions.filterMap a.wideMask? = f.instructions.filterMap a.wideMask? := by
    refine filterMap_assignRegisters (fun op hop j hj => ?_) huntouched.all hassign
    rcases hop with rfl | rfl | rfl <;> exact Arch.wideMask?_of_generic _ hj (by decide)
  rw [wideMasks, wideMasks, ← hmoves]
  refine filterMap_of_forall₂ ?_ ((List.forall₂_and_left _ _).mpr
    ⟨fun i hi => hi, forall₂_instructions hblocks⟩)
  rintro i j ⟨hi, hplace⟩
  exact wideMask?_placeInstruction (fun id root => mem_homes_of_lookup hassign) (hready i hi)
    (hshaped' i hi) hplace

end Machine.Function

/-! ## Native code -/

namespace Target.AArch64

variable {site : Site} {i : Instruction} {op : GenericOp} {r : Replacement} {n : Int}

theorem wideMask?_widenRegisters {number : Nat} (hi : i.opcode = .native number) :
    Arch.aarch64.wideMask? (widenRegisters i) = Arch.aarch64.wideMask? i :=
  wideMask?_congr hi rfl (registerBits_widenRegisters i 0) (immediate?_widenRegisters i 2)

/-- **A mask that is too wide stays in its instruction.** -/
theorem Form.wideMask? (h : Form registers site op r) (hop : site.instruction.opcode = .generic op)
    (hi : site.instruction.Ready .aarch64) (hallocated : site.instruction.Allocated aarch64)
    (hwide : Arch.aarch64.wideMask? site.instruction = some n) :
    r.rest = [] ∧ Arch.aarch64.wideMask? r.first = some n ∧
      ∃ number, r.first.opcode = .native number := by
  have hgeneric : site.instruction.generic? = some op := congrArg Opcode.generic? hop
  have hbitwise : op.IsBitwise := by
    by_contra hplain
    rw [Arch.wideMask?_of_generic _ hgeneric hplain] at hwide
    cases hwide
  rw [Arch.wideMask?_of_bitwise hgeneric hbitwise] at hwide
  have hconstant := (Option.filter_eq_some_iff.mp hwide).1
  cases h with
  | @register _ _ _ second _ hsecond hphysical =>
    have hnone : second.immediate? = none := by
      obtain ⟨kind, ty, regClass⟩ := second
      cases kind <;> first | rfl | cases hphysical
    rw [Instruction.constant?, hsecond, Option.bind_some, hnone] at hconstant
    cases hconstant
  | @constant _ _ selected second hforms hsecond =>
    have hlogical : selected.isLogical := by
      rcases hbitwise with rfl | rfl | rfl <;> cases hforms <;> rfl
    obtain ⟨dest, hdest⟩ : ∃ dest, site.instruction.operand? 0 = some dest := by
      have hlength := (List.getElem?_eq_some_iff.mp hsecond).1
      exact ⟨site.instruction.operands[0], List.getElem?_eq_getElem (by omega)⟩
    have hhas : op.hasDest := by rcases hbitwise with rfl | rfl | rfl <;> rfl
    have hbits : Arch.aarch64.registerBits (site.instruction.operand? 0) =
        registerWidth (destWidth site.instruction) := by
      rw [hdest, registerBits_of_ready hi hallocated hgeneric hhas hdest, destWidth, hdest]
    refine ⟨rfl, ?_, selected.number, rfl⟩
    rw [selected.wideMask?_eq rfl hlogical, ← hwide, ← hbits]
    rfl
  | compare hkind | fused hkind =>
    rcases hkind with ⟨rfl, -⟩ | ⟨rfl, -⟩ <;> exact absurd hbitwise (by decide)
  | smallConstant hkind | wideConstant hkind =>
    rcases hkind with rfl | rfl | rfl <;> exact absurd hbitwise (by decide)
  | move hkind => rcases hkind with rfl | rfl <;> exact absurd hbitwise (by decide)
  | convert hkind =>
    rcases hkind with rfl | rfl | rfl | rfl | rfl <;> exact absurd hbitwise (by decide)
  | _ => exact absurd hbitwise (by decide)

end Target.AArch64

theorem Arch.wideMask?_of_encodable {a : Arch} {i : Instruction} (hi : i.generic? = none)
    (h : a.Encodable i) : a.wideMask? i = none := by
  cases a with
  | riscv32 => rfl
  | aarch64 =>
    cases hcode : i.opcode with
    | native number => exact AArch64.wideMask?_of_encodable hcode h
    | generic op => cases (congrArg Opcode.generic? hcode).symm.trans hi

theorem Arch.generic?_of_select {a : Arch} {site : Site} {op : GenericOp} {r : Replacement}
    (h : a.target.select site op = .ok r) : ∀ j ∈ r.first :: r.rest, j.generic? = none := by
  have hnative : ∀ {j : Instruction} {flags : Flags}, a.nativeFlags? j = some flags →
      j.generic? = none := by
    intro j flags hflags
    rw [nativeFlags?] at hflags
    split at hflags
    · cases hflags
    · next hcode => exact congrArg Opcode.generic? hcode
  obtain ⟨hfirst, hrest⟩ := nativeFlags?_of_select h
  exact List.forall_mem_cons.mpr ⟨hnative hfirst, fun j hj => (hrest j hj).elim hnative hnative⟩

namespace Machine.Function

variable {a : Arch} {f g : Function} {i : Instruction}

/-- A mask that is too wide stays alone. -/
theorem wideMask?_of_becomes {new : List Instruction} {n : Int} (hi : i.Ready .aarch64)
    (hallocated : i.Allocated aarch64) (hwide : Arch.aarch64.wideMask? i = some n)
    (h : Becomes aarch64 i new) : ∃ j, new = [j] ∧ Arch.aarch64.wideMask? j = some n := by
  obtain ⟨f, b, k, ⟨-, rfl⟩ | ⟨op, r, hop, hselect, rfl⟩⟩ := h
  · exact ⟨i, rfl, hwide⟩
  · obtain ⟨form, hform, rfl⟩ := AArch64.select_eq_ok hselect
    obtain ⟨hrest, hfirst, number, hcode⟩ :=
      hform.wideMask? (Instruction.generic?_eq_some hop) hi hallocated hwide
    refine ⟨AArch64.widenRegisters form.first, congrArg (_ :: ·) hrest, ?_⟩
    rw [AArch64.wideMask?_widenRegisters hcode, hfirst]

/-- **Selection keeps a mask that is too wide**, and makes encodable code of everything else. -/
theorem wideMasks_of_becomes {new : List Instruction} (hi : i.Ready a)
    (hallocated : i.Allocated a.target) (h : Becomes a.target i new) :
    new.filterMap a.wideMask? = [i].filterMap a.wideMask? ∧
      ∀ j ∈ new, a.wideMask? j = none → a.Encodable j := by
  cases hwide : a.wideMask? i with
  | none =>
    have hencodable := encodable_of_becomes hi hallocated hwide h
    have hnone : ∀ j ∈ new, a.wideMask? j = none := by
      obtain ⟨f, b, k, ⟨-, rfl⟩ | ⟨op, r, hop, hselect, rfl⟩⟩ := h
      · exact List.forall_mem_singleton.mpr hwide
      · intro j hj
        exact Arch.wideMask?_of_encodable (Arch.generic?_of_select hselect j hj)
          (hencodable j hj)
    refine ⟨?_, fun j hj _ => hencodable j hj⟩
    rw [List.filterMap_eq_nil_iff.mpr hnone, List.filterMap_cons, hwide]
    rfl
  | some n =>
    cases a with
    | riscv32 => cases hwide
    | aarch64 =>
      obtain ⟨j, rfl, hj⟩ := wideMask?_of_becomes hi hallocated hwide h
      refine ⟨by simp only [List.filterMap_cons, hj, hwide], ?_⟩
      rw [List.forall_mem_singleton, hj]
      rintro ⟨⟩

/-- **Native code has the masks that are too wide** of the allocated code, and can be encoded apart
from them. -/
theorem wideMasks_selectInstructions (hf : f.All (·.Ready a))
    (hallocated : f.All (·.Allocated a.target)) (h : f.selectInstructions a.target = .ok g) :
    g.wideMasks a = f.wideMasks a ∧ g.All fun j => a.wideMask? j = none → a.Encodable j := by
  refine ⟨filterMap_selectInstructions (fun i hi new hnew =>
    (wideMasks_of_becomes (hf i hi) (hallocated i hi) hnew).1) (fun ha i => ?_) h, ?_⟩
  · subst ha
    exact AArch64.wideMask?_narrowSource i
  · refine All.selectInstructions (P := fun i => i.Ready a ∧ i.Allocated a.target)
      (fun i hi => ⟨hf i hi, hallocated i hi⟩)
      (fun i new hi hnew => (wideMasks_of_becomes hi.1 hi.2 hnew).2) (fun ha i hi hwide => ?_) h
    subst ha
    rw [AArch64.wideMask?_narrowSource] at hwide
    exact AArch64.encodable_narrowSource (hi hwide)

/-- **Frame code is encodable.** -/
theorem wideMasks_insertFrameCode (hf : f.All fun i => a.wideMask? i = none → a.Encodable i)
    (h : f.insertFrameCode a.target = .ok g) :
    (∀ n, n ∈ g.wideMasks a ↔ n ∈ f.wideMasks a) ∧
      g.All fun i => a.wideMask? i = none → a.Encodable i := by
  rcases adds_insertFrameCode h with
    ⟨rfl, -⟩ | ⟨bytes, size, saves, stores, loads, -, -, hsize, rfl, hstores, hloads, hadds⟩
  · exact ⟨fun n => .rfl, hf⟩
  · have hready : ∀ i ∈ loads ++ [adjustStack a.target .add size] ++
        adjustStack a.target .sub size :: stores,
        (i.Ready a ∧ i.Allocated a.target) ∧ a.wideMask? i = none := by
      simp only [List.forall_mem_append, List.forall_mem_cons, List.not_mem_nil, false_implies,
        implies_true, and_true]
      refine ⟨⟨fun i hi => ?_, ready_adjustStack (.inl rfl) hsize,
        Arch.wideMask?_of_generic .add rfl (by decide)⟩,
        ⟨ready_adjustStack (.inr rfl) hsize,
          Arch.wideMask?_of_generic .sub rfl (by decide)⟩, fun i hi => ?_⟩
      · obtain ⟨s, hs, hi⟩ := exists_of_mem_mapM_eq_ok hloads hi
        obtain ⟨e, -, rfl⟩ := List.mem_map.mp (List.mem_reverse.mp hs)
        refine ⟨ready_accessSaved (.inl rfl) hi, ?_⟩
        rw [accessSaved_eq_ok hi]
        exact Arch.wideMask?_of_generic .load rfl (by decide)
      · obtain ⟨s, hs, hi⟩ := exists_of_mem_mapM_eq_ok hstores hi
        obtain ⟨e, -, rfl⟩ := List.mem_map.mp hs
        refine ⟨ready_accessSaved (.inr rfl) hi, ?_⟩
        rw [accessSaved_eq_ok hi]
        exact Arch.wideMask?_of_generic .store rfl (by decide)
    have hadded : ∀ j ∈ g.instructions, j ∈ f.instructions ∨
        a.wideMask? j = none ∧ a.Encodable j := by
      intro j hj
      refine (hadds.cases j hj).imp_right ?_
      rintro ⟨i, hi, new, hnew, hj⟩
      obtain ⟨⟨hi', hallocated⟩, hwide⟩ := hready i hi
      obtain ⟨hmasks, hencodable⟩ := wideMasks_of_becomes hi' hallocated hnew
      rw [List.filterMap_cons, hwide] at hmasks
      have hnone := List.filterMap_eq_nil_iff.mp hmasks j hj
      exact ⟨hnone, hencodable j hj hnone⟩
    refine ⟨fun n => ⟨fun hn => ?_, fun hn => ?_⟩, fun j hj hwide => ?_⟩
    · obtain ⟨j, hj, hn⟩ := List.mem_filterMap.mp hn
      rcases hadded j hj with hj | ⟨hnone, -⟩
      · exact List.mem_filterMap.mpr ⟨j, hj, hn⟩
      · cases hnone.symm.trans hn
    · obtain ⟨i, hi, hn⟩ := List.mem_filterMap.mp hn
      exact List.mem_filterMap.mpr ⟨i, hadds.kept hi, hn⟩
    · rcases hadded j hj with hj | ⟨-, hencodable⟩
      · exact hf j hj hwide
      · exact hencodable

end Machine.Function

namespace Options

variable {o : Options} {m : Ir.Module} {code : Machine.Module} {f : Function}

/-- **Constants of native code can be encoded but for masks that are too wide**, if the module
computes with words.  Those are the ones of the lowered code: the constants of a function can all be
encoded exactly if it was lowered without such masks. -/
theorem constants_encodable_iff (hm : m.WordTyped) (h : o.machineCode m = .ok code)
    (hf : f ∈ code.functions) :
    (f.All fun i => i.isSelected ∧ (o.arch.Encodable i ↔ o.arch.wideMask? i = none)) ∧
      ∃ f₀ f₁ f₂ f₃, o.target.ProducesFrom m f₀ ∧ f₀.legalize o.target = .ok f₁ ∧
        (f₁.selectClasses o.target).allocateRegisters o.target = .ok f₂ ∧
        f₂.selectInstructions o.target = .ok f₃ ∧ f₃.insertFrameCode o.target = .ok f ∧
        (∀ n, n ∈ f.wideMasks o.arch ↔ n ∈ f₀.wideMasks o.arch) ∧
        (f.All o.arch.Encodable ↔ f₀.wideMasks o.arch = []) := by
  obtain ⟨f₀, f₁, f₂, f₃, h₀, h₁, h₂, h₃, h₄⟩ := exists_passes_from h hf
  have hshaped := Function.shaped_legalize h₀.produces.shaped h₁
  have hallocated := Function.allocated_allocateRegisters hshaped.selectClasses h₂
  have hframe : f₃.frame = (f₁.selectClasses o.target).frame :=
    (Function.frame_selectInstructions h₃).trans (Function.frame_allocateRegisters h₂)
  have hready₁ : (f₁.selectClasses o.target).All (·.Ready o.arch) :=
    Function.ready_selectClasses (Function.ready_legalize h₀ hm h₁)
  have hready₂ : f₂.All (·.Ready o.arch) := by
    refine Function.ready_allocateRegisters hready₁ hshaped.selectClasses
      (fun slot position hp => ?_) h₂
    rw [← hframe] at hp
    exact Function.le_of_insertFrameCode h₄ hp
  have huntouched := ((Function.untouched_of_produces h₀.produces).legalize h₁).selectClasses
  have hlowered : f₂.wideMasks o.arch = f₀.wideMasks o.arch := by
    rw [Function.wideMasks_allocateRegisters hready₁ huntouched hshaped.selectClasses h₂,
      Function.wideMasks_selectClasses, Function.wideMasks_legalize h₁]
  obtain ⟨hselected, hencodable₃⟩ := Function.wideMasks_selectInstructions hready₂ hallocated h₃
  obtain ⟨hmem, hencodable⟩ := Function.wideMasks_insertFrameCode hencodable₃ h₄
  rw [hselected, hlowered] at hmem
  have hiff : f.All fun i => i.isSelected ∧ (o.arch.Encodable i ↔ o.arch.wideMask? i = none) := by
    intro i hi
    have hfinal := ((yields_machineCode o m).of_eq_ok h f hf i hi).fits.1
    refine ⟨hfinal, Arch.wideMask?_of_encodable ?_, hencodable i hi⟩
    cases hcode : i.opcode with
    | native number => exact congrArg Opcode.generic? hcode
    | generic op => simp [Instruction.isSelected, hcode, Opcode.isSelected] at hfinal
  refine ⟨hiff, f₀, f₁, f₂, f₃, h₀, h₁, h₂, h₃, h₄, hmem, ?_⟩
  calc f.All o.arch.Encodable
      ↔ ∀ i ∈ f.instructions, o.arch.wideMask? i = none := forall₂_congr fun i hi => (hiff i hi).2
    _ ↔ f.wideMasks o.arch = [] := List.filterMap_eq_nil_iff.symm
    _ ↔ f₀.wideMasks o.arch = [] := by simp only [List.eq_nil_iff_forall_not_mem, hmem]

/-- Constants that fit, that fit once negated, that are masks, and one of several fields. -/
def constants : Ir.Module where
  name := "m"
  functions := [{
    name := "f"
    returnType := .i32
    parameters := [⟨"p", .i32, false⟩]
    blocks := [{
      name := "entry"
      instructions := [
        .binary 0 .and (.param "p" .i32) (.int 4080) .i32,
        .binary 1 .add (.temp 0 .i32) (.int (-2048)) .i32,
        .binary 2 .shl (.temp 1 .i32) (.int 31) .i32,
        .unary 3 .trunc (.temp 2 .i32) (.int 16 true),
        .unary 4 .sext (.temp 3 (.int 16 true)) .i32,
        .binary 5 .sub (.temp 4 .i32) (.int 123456789) .i32,
        .ret (some (.temp 5 .i32))] }] }]

theorem constants_encoded : ∃ code code' f f', constants.WordTyped ∧
    machineCode {} constants = .ok code ∧ f ∈ code.functions ∧
    f.instructions.filterMap (·.constant? 2) = [4080, 2048, 31, 65535, 16] ∧
    (f.All fun i => i.isSelected ∧ Arch.aarch64.Encodable i) ∧
    machineCode { arch := .riscv32 } constants = .ok code' ∧ f' ∈ code'.functions ∧
    f'.instructions.filterMap (·.constant? 2) = [-2048, 31, 16, 16, 16, 16] ∧
    f'.All fun i => i.isSelected ∧ Arch.riscv32.Encodable i := by
  have hwords : constants.WordTyped := by decide +kernel
  have hcode : ∀ (o : Options) (ns : List Int), (machineCode o constants).map (·.functions.map
      fun f => (f.instructions.filterMap (·.constant? 2), f.wideMasks o.arch)) = .ok [(ns, [])] →
      ∃ code f, machineCode o constants = .ok code ∧ f ∈ code.functions ∧
        f.instructions.filterMap (·.constant? 2) = ns ∧
        f.All fun i => i.isSelected ∧ o.arch.Encodable i := by
    intro o ns hrun
    obtain ⟨code, hcode, hconstants⟩ := map_eq_ok.mp hrun
    obtain ⟨f, rest, hfunctions, hshown, -⟩ := List.map_eq_cons_iff.mp hconstants
    obtain ⟨hns, hmasks⟩ := Prod.mk.inj hshown
    have hf : f ∈ code.functions := by simp [hfunctions]
    obtain ⟨hall, -⟩ := constants_encodable_iff hwords hcode hf
    exact ⟨code, f, hcode, hf, hns, fun i hi => ⟨(hall i hi).1,
      (hall i hi).2.mpr (List.filterMap_eq_nil_iff.mp hmasks i hi)⟩⟩
  obtain ⟨code, f, hf⟩ := hcode {} [4080, 2048, 31, 65535, 16] (by decide +kernel)
  obtain ⟨code', f', hf'⟩ := hcode { arch := .riscv32 } [-2048, 31, 16, 16, 16, 16]
    (by decide +kernel)
  exact ⟨code, code', f, f', hwords, hf.1, hf.2.1, hf.2.2.1, hf.2.2.2, hf'⟩

/-- A constant of 33 bits whose low 32 bits are a mask. -/
def overlong : Ir.Module where
  name := "m"
  functions := [{
    name := "f"
    returnType := .i32
    parameters := [⟨"p", .i32, false⟩]
    blocks := [{
      name := "entry"
      instructions := [
        .binary 0 .and (.param "p" .i32) (.int 4294967551) .i32,
        .ret (some (.temp 0 .i32))] }] }]

/-- **The low 32 bits of 4294967551 are the mask 255**, so the constant stays in the instruction,
which has no encoding. -/
theorem overlong_not_encodable : ∃ code, overlong.WordTyped ∧
    machineCode {} overlong = .ok code ∧ ∃ f ∈ code.functions, ∃ i ∈ f.instructions,
      i.opcode = Target.AArch64.Op.andI.opcode ∧ Arch.aarch64.registerBits (i.operand? 0) = 32 ∧
      i.constant? 2 = some 4294967551 ∧ ¬Arch.aarch64.Encodable i := by
  have hrun : (machineCode {} overlong).map (·.functions.map fun f => f.instructions.map fun i =>
      (i.opcode, Arch.aarch64.registerBits (i.operand? 0), i.constant? 2)) =
        .ok [[(Target.AArch64.Op.andI.opcode, 32, some 4294967551),
          (Target.AArch64.Op.ret.opcode, 0, none)]] := by
    decide +kernel
  obtain ⟨code, hcode, hshown⟩ := map_eq_ok.mp hrun
  obtain ⟨f, rest, hfunctions, hshown, -⟩ := List.map_eq_cons_iff.mp hshown
  obtain ⟨i, rest, hinstructions, hshown, -⟩ := List.map_eq_cons_iff.mp hshown
  obtain ⟨hopcode, hshown⟩ := Prod.mk.inj hshown
  obtain ⟨hbits, hconstant⟩ := Prod.mk.inj hshown
  refine ⟨code, by decide +kernel, hcode, f, by simp [hfunctions], i, by simp [hinstructions],
    hopcode, hbits, hconstant, fun hencodable => ?_⟩
  have hwide : Arch.aarch64.wideMask? i = some 4294967551 := by
    rw [Target.AArch64.Op.andI.wideMask?_eq hopcode rfl, hbits, hconstant]
    decide +kernel
  rw [Target.AArch64.wideMask?_of_encodable hopcode hencodable] at hwide
  cases hwide

end Options

end Retarget
