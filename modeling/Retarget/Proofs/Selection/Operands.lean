import Retarget.Pipeline
import Retarget.Proofs.Selection.Forms
import Retarget.Proofs.Shape.Basic

/-!
# Flags and operands of native forms

A native form of an operation is one that templates give the flags of the operation, and what is put
behind it can at most jump (`nativeFlags?_of_select`).  The operands of native code are operands of
the instruction that is selected, other views of their registers, and constants, so that what holds
of all those (`Arch.Inherits`) is inherited by the native code (`operands_of_select`).
-/

namespace Retarget

open Machine Target

/-! ## What is inherited -/

/-- The flags that the template of a native instruction has. -/
def Arch.nativeFlags? (a : Arch) (i : Instruction) : Option Flags :=
  match i.opcode with
  | .generic _ => none
  | .native number => a.target.templates[number]?.map (·.flags)

/-- A property that depends on no types, holds of constants, and goes from a register to all of its
views. -/
structure Arch.Inherits (a : Arch) (Q : Operand → Prop) : Prop where
  congr : ∀ {o o' : Operand}, o.kind = o'.kind → Q o → Q o'
  immediate : ∀ {o : Operand}, o.isImmediate → Q o
  view : ∀ {o o' : Operand} {reg : RegId} (bits : Nat), o.kind = .physicalReg reg →
    o'.kind = .physicalReg (a.target.registers.withWidth reg bits) → Q o → Q o'

theorem Machine.Operand.kind_of_reg? {o : Operand} {reg : RegId} (hfinal : o.isFinal)
    (hreg : o.reg? = some reg) : o.kind = .physicalReg reg := by
  obtain ⟨kind, ty, regClass⟩ := o
  cases kind with
  | physicalReg r =>
    cases hreg
    rfl
  | virtualReg r | parameter r | memory r offset => cases hfinal
  | _ => cases hreg

namespace Target

/-! ## AArch64 -/

namespace AArch64

variable {site : Site} {op : GenericOp} {r : Replacement} {Q : Operand → Prop}

theorem Op.nativeFlags? (op : Op) {i : Instruction} (h : i.opcode = op.opcode) :
    Arch.aarch64.nativeFlags? i = some op.flags := by
  rw [Arch.nativeFlags?, h]
  cases op <;> rfl

theorem flags_of_binaryForms? {selected : Op} {constant : Option Op}
    (h : binaryForms? op = some (selected, constant)) :
    selected.flags = op.flags ∧ ∀ c, constant = some c → c.flags = op.flags := by
  cases op <;> cases h <;> exact ⟨rfl, by rintro _ ⟨⟩ <;> rfl⟩

theorem flags_loadOp (bits : Nat) (isFloat : Bool) :
    (loadOp bits isFloat).flags = { load := true } := by
  rw [loadOp]
  split_ifs <;> rfl

theorem flags_storeOp (bits : Nat) (isFloat : Bool) :
    (storeOp bits isFloat).flags = { store := true } := by
  rw [storeOp]
  split_ifs <;> rfl

theorem Form.nativeFlags? {rs : Registers} (h : Form rs site op r) :
    Arch.aarch64.nativeFlags? r.first = some op.flags ∧ ∀ j ∈ r.rest,
      Arch.aarch64.nativeFlags? j = some {} ∨
        Arch.aarch64.nativeFlags? j = some { jump := true } := by
  have hnone : ∀ j ∈ ([] : List Instruction), Arch.aarch64.nativeFlags? j = some {} ∨
      Arch.aarch64.nativeFlags? j = some { jump := true } := by simp
  have hfirst : ∀ {j : Instruction} (selected : Op), j.opcode = selected.opcode →
      selected.flags = op.flags → Arch.aarch64.nativeFlags? j = some op.flags :=
    fun selected hcode hflags => hflags ▸ selected.nativeFlags? hcode
  cases h with
  | register hforms => exact ⟨hfirst _ rfl (flags_of_binaryForms? hforms).1, hnone⟩
  | constant hforms => exact ⟨hfirst _ rfl ((flags_of_binaryForms? hforms).2 _ rfl), hnone⟩
  | @compare _ selected relation _ _ hkind =>
    refine ⟨hfirst selected rfl ?_, List.forall_mem_singleton.mpr (.inl ?_)⟩
    · rcases hkind with ⟨rfl, ⟨rfl, -⟩ | ⟨rfl, -⟩⟩ | ⟨rfl, rfl⟩ <;> rfl
    · rw [(Op.setOn relation).nativeFlags? rfl]
      cases relation <;> rfl
  | fused hkind =>
    refine ⟨hfirst _ rfl ?_, hnone⟩
    rcases hkind with ⟨rfl, ⟨rfl, -⟩ | ⟨rfl, -⟩⟩ | ⟨rfl, rfl⟩ <;> rfl
  | smallConstant hkind =>
    exact ⟨hfirst .movI rfl (by rcases hkind with rfl | rfl | rfl <;> rfl), hnone⟩
  | wideConstant hkind =>
    refine ⟨hfirst .movI rfl (by rcases hkind with rfl | rfl | rfl <;> rfl), fun j hj => .inl ?_⟩
    obtain ⟨shift, -, hj⟩ := List.mem_flatMap.mp hj
    rw [moveField] at hj
    split at hj
    · cases hj
    · rw [List.mem_singleton.mp hj]
      exact Op.movk.nativeFlags? rfl
  | move hkind hselected =>
    refine ⟨hfirst _ rfl ?_, hnone⟩
    rcases hkind with rfl | rfl <;> rcases hselected with rfl | rfl <;> rfl
  | load | zextLoad => exact ⟨hfirst _ rfl (flags_loadOp _ _), hnone⟩
  | store => exact ⟨hfirst _ rfl (flags_storeOp _ _), hnone⟩
  | @convert _ selected hkind hselected =>
    have hflags : selected.flags = {} := by
      revert selected
      decide
    refine ⟨hfirst _ rfl (hflags.trans ?_), hnone⟩
    rcases hkind with rfl | rfl | rfl | rfl | rfl <;> rfl
  | @extend selected _ _ hselected =>
    have hflags : selected.flags = {} := by
      revert selected
      decide
    exact ⟨hfirst _ rfl hflags, hnone⟩
  | mask => exact ⟨hfirst .andI rfl rfl, hnone⟩
  | stackAddress => exact ⟨hfirst .addI rfl rfl, hnone⟩
  | branch h =>
    have hjump : ∀ j ∈ r.first :: r.rest,
        Arch.aarch64.nativeFlags? j = some { jump := true } := by
      intro j hj
      obtain ⟨selected, hjump, hcode⟩ := exists_jump_of_selectBranch h j hj
      rw [selected.nativeFlags? hcode]
      cases selected <;> first | rfl | cases hjump
    exact ⟨hjump _ List.mem_cons_self, fun j hj => .inr (hjump j (List.mem_cons_of_mem _ hj))⟩
  | jump => exact ⟨hfirst .b rfl rfl, hnone⟩
  | call => exact ⟨hfirst .bl rfl rfl, hnone⟩
  | ret => exact ⟨hfirst .ret rfl rfl, hnone⟩

/-- A selected branch and the jump behind it are over what the branch is over, and the branch has its
flags. -/
theorem operands_selectBranch (h : selectBranch site = .ok r) :
    (∀ j ∈ r.first :: r.rest, j.operands ⊆ site.instruction.operands) ∧
      r.first.flags = site.instruction.flags ∧ ∀ j ∈ r.rest, j.isReturn = false := by
  unfold selectBranch at h
  extract_lets instr cond relation falseTarget taken branch at h
  cases h
  have htaken : taken.operands ⊆ instr.operands ∧ taken.flags = instr.flags := by
    unfold taken
    split
    · exact ⟨fun _ => List.mem_of_mem_eraseIdx, rfl⟩
    · exact ⟨fun _ => id, rfl⟩
  have hbranch : branch.operands ⊆ instr.operands ∧ branch.flags = instr.flags := by
    unfold branch
    cases relation with
    | some r => exact ⟨fun _ ho => htaken.1 (List.mem_of_mem_eraseIdx ho), htaken.2⟩
    | none => exact htaken
  refine ⟨List.forall_mem_cons.mpr ⟨hbranch.1, fun j hj o ho => ?_⟩, hbranch.2, fun j hj => ?_⟩
  · obtain ⟨label, hlabel, rfl⟩ := List.mem_map.mp hj
    obtain rfl := List.mem_singleton.mp ho
    unfold falseTarget at hlabel
    split at hlabel
    · exact List.mem_of_getElem? (Option.mem_toList.mp hlabel)
    · cases hlabel
  · obtain ⟨label, -, rfl⟩ := List.mem_map.mp hj
    rfl

/-- A native form is marked as the instruction is, and what is put behind it is marked as no return. -/
theorem Form.flags {rs : Registers} (h : Form rs site op r) :
    r.first.flags = site.instruction.flags ∧ ∀ j ∈ r.rest, j.isReturn = false := by
  cases h with
  | compare => exact ⟨rfl, List.forall_mem_singleton.mpr rfl⟩
  | wideConstant =>
    refine ⟨rfl, fun j hj => ?_⟩
    obtain ⟨shift, -, hj⟩ := List.mem_flatMap.mp hj
    rw [moveField] at hj
    split at hj
    · cases hj
    · rw [List.mem_singleton.mp hj]
      rfl
  | branch h => exact (operands_selectBranch h).2
  | _ => exact ⟨rfl, by simp⟩

theorem inherits_narrowTo32 (hQ : Arch.aarch64.Inherits Q) {dest : Operand} {reg : RegId}
    (hdest : Q dest) (hfinal : dest.isFinal) (hreg : dest.reg? = some reg) (o : Operand) :
    Q (narrowTo32 registers reg o) :=
  hQ.view 32 (Operand.kind_of_reg? hfinal hreg) rfl hdest

/-- **A native form inherits what holds of all operands** of the instruction. -/
theorem Form.operands (h : Form registers site op r) (hQ : Arch.aarch64.Inherits Q)
    (hfinal : ∀ o ∈ site.instruction.operands, o.isFinal)
    (hall : ∀ o ∈ site.instruction.operands, Q o) :
    ∀ j ∈ r.first :: r.rest, ∀ o ∈ j.operands, Q o := by
  have hdest : ∀ {dest : Operand} {k : Nat}, site.instruction.operand? k = some dest → Q dest :=
    fun h => hall _ (List.mem_of_getElem? h)
  have hnarrow : ∀ {dest : Operand} {reg : RegId}, site.instruction.operand? 0 = some dest →
      dest.reg? = some reg → ∀ o, Q (narrowTo32 registers reg o) := fun hdest hreg o =>
    inherits_narrowTo32 hQ (hall _ (List.mem_of_getElem? hdest))
      (hfinal _ (List.mem_of_getElem? hdest)) hreg o
  cases h with
  | register | constant | move | load | store | convert | stackAddress | jump | call =>
    exact List.forall_mem_singleton.mpr hall
  | compare _ hop =>
    exact List.forall_mem_cons.mpr ⟨forall_mem_eraseIdx hall 0,
      List.forall_mem_singleton.mpr (List.forall_mem_singleton.mpr (hdest hop))⟩
  | fused => exact List.forall_mem_singleton.mpr (forall_mem_eraseIdx hall 0)
  | smallConstant =>
    exact List.forall_mem_singleton.mpr (forall_mem_set hall 1 (hQ.immediate rfl))
  | wideConstant _ hop =>
    refine List.forall_mem_cons.mpr ⟨forall_mem_set hall 1 (hQ.immediate rfl), fun j hj => ?_⟩
    obtain ⟨shift, -, hj⟩ := List.mem_flatMap.mp hj
    rw [moveField] at hj
    split at hj
    · cases hj
    · rw [List.mem_singleton.mp hj]
      exact List.forall_mem_cons.mpr ⟨hdest hop, List.forall_mem_cons.mpr
        ⟨hQ.immediate rfl, List.forall_mem_singleton.mpr (hQ.immediate rfl)⟩⟩
  | zextLoad hop _ _ hreg =>
    exact List.forall_mem_singleton.mpr
      (forall_mem_modify (forall_mem_eraseIdx hall 1) 0 fun o _ => hnarrow hop hreg o)
  | extend _ hop hreg =>
    exact List.forall_mem_singleton.mpr (forall_mem_modify hall 0 fun o _ => hnarrow hop hreg o)
  | mask =>
    exact List.forall_mem_singleton.mpr (List.forall_mem_append.mpr
      ⟨hall, List.forall_mem_singleton.mpr (hQ.immediate rfl)⟩)
  | branch h => exact fun j hj o ho => hall o ((operands_selectBranch h).1 j hj ho)
  | ret => exact List.forall_mem_singleton.mpr (by simp)

end AArch64

/-! ## RV32 -/

namespace Riscv

variable {site : Site} {op : GenericOp} {r : Replacement} {Q : Operand → Prop}

theorem Op.nativeFlags? (op : Op) {i : Instruction} (h : i.opcode = op.opcode) :
    Arch.riscv32.nativeFlags? i = some op.flags := by
  rw [Arch.nativeFlags?, h]
  cases op <;> rfl

theorem flags_of_binaryForms? {selected : Op} {constant : Option Op}
    (h : binaryForms? op = some (selected, constant)) :
    selected.flags = op.flags ∧ ∀ c, constant = some c → c.flags = op.flags := by
  cases op <;> cases h <;> exact ⟨rfl, by rintro _ ⟨⟩ <;> rfl⟩

theorem flags_loadOp (bits : Nat) : (loadOp bits).flags = { load := true } := by
  rw [loadOp]
  split_ifs <;> rfl

theorem flags_storeOp (bits : Nat) : (storeOp bits).flags = { store := true } := by
  rw [storeOp]
  split_ifs <;> rfl

theorem Form.nativeFlags? (h : Form site op r) :
    Arch.riscv32.nativeFlags? r.first = some op.flags ∧ ∀ j ∈ r.rest,
      Arch.riscv32.nativeFlags? j = some {} ∨
        Arch.riscv32.nativeFlags? j = some { jump := true } := by
  have hnone : ∀ j ∈ ([] : List Instruction), Arch.riscv32.nativeFlags? j = some {} ∨
      Arch.riscv32.nativeFlags? j = some { jump := true } := by simp
  have hfirst : ∀ {j : Instruction} (selected : Op), j.opcode = selected.opcode →
      selected.flags = op.flags → Arch.riscv32.nativeFlags? j = some op.flags :=
    fun selected hcode hflags => hflags ▸ selected.nativeFlags? hcode
  cases h with
  | register hforms => exact ⟨hfirst _ rfl (flags_of_binaryForms? hforms).1, hnone⟩
  | constant hforms => exact ⟨hfirst _ rfl ((flags_of_binaryForms? hforms).2 _ rfl), hnone⟩
  | subtract => exact ⟨hfirst .addi rfl rfl, hnone⟩
  | compare _ hselected =>
    refine ⟨hfirst _ rfl ?_, hnone⟩
    rcases hselected with ⟨rfl | rfl, -⟩ | ⟨rfl | rfl, -⟩ <;> rfl
  | convert hkind => exact ⟨hfirst .mv rfl (by rcases hkind with rfl | rfl | rfl <;> rfl), hnone⟩
  | signed =>
    exact ⟨hfirst .slli rfl rfl, List.forall_mem_singleton.mpr (.inl (Op.srai.nativeFlags? rfl))⟩
  | unsigned hkind =>
    exact ⟨hfirst .slli rfl (by rcases hkind with rfl | rfl <;> rfl),
      List.forall_mem_singleton.mpr (.inl (Op.srli.nativeFlags? rfl))⟩
  | mask hkind => exact ⟨hfirst .andi rfl (by rcases hkind with rfl | rfl <;> rfl), hnone⟩
  | move hkind hselected =>
    refine ⟨hfirst _ rfl ?_, hnone⟩
    rcases hkind with rfl | rfl <;> rcases hselected with rfl | rfl <;> rfl
  | load => exact ⟨hfirst _ rfl (flags_loadOp _), hnone⟩
  | store => exact ⟨hfirst _ rfl (flags_storeOp _), hnone⟩
  | stackAddress => exact ⟨hfirst .addi rfl rfl, hnone⟩
  | globalAddress =>
    exact ⟨hfirst .luiHi rfl rfl,
      List.forall_mem_singleton.mpr (.inl (Op.addiLo.nativeFlags? rfl))⟩
  | branch h =>
    have hjump : ∀ j ∈ r.first :: r.rest,
        Arch.riscv32.nativeFlags? j = some { jump := true } := by
      intro j hj
      obtain ⟨selected, hjump, hcode⟩ := exists_jump_of_selectBranch h j hj
      rw [selected.nativeFlags? hcode]
      cases selected <;> first | rfl | cases hjump
    exact ⟨hjump _ List.mem_cons_self, fun j hj => .inr (hjump j (List.mem_cons_of_mem _ hj))⟩
  | jump => exact ⟨hfirst .j rfl rfl, hnone⟩
  | call => exact ⟨hfirst .call rfl rfl, hnone⟩
  | ret => exact ⟨hfirst .ret rfl rfl, hnone⟩

theorem operands_selectBranch (h : selectBranch site = .ok r) :
    (∀ j ∈ r.first :: r.rest, j.operands ⊆ site.instruction.operands) ∧
      r.first.flags = site.instruction.flags ∧ ∀ j ∈ r.rest, j.isReturn = false := by
  unfold selectBranch at h
  extract_lets instr at h
  split at h
  · cases h
    refine ⟨List.forall_mem_cons.mpr ⟨fun _ => List.mem_of_mem_eraseIdx, fun j hj o ho => ?_⟩, rfl,
      fun j hj => ?_⟩
    · obtain ⟨label, hlabel, rfl⟩ := List.mem_map.mp hj
      obtain rfl := List.mem_singleton.mp ho
      exact List.mem_of_getElem? (Option.mem_toList.mp hlabel)
    · obtain ⟨label, -, rfl⟩ := List.mem_map.mp hj
      rfl
  · cases h
    exact ⟨List.forall_mem_singleton.mpr fun _ => id, rfl, by simp⟩

/-- A native form is marked as the instruction is, or is new in the place of an instruction that does
nothing but compute, and what is put behind it is marked as no return. -/
theorem Form.flags (h : Form site op r) :
    (r.first.flags = site.instruction.flags ∨ r.first.flags = {} ∧ op.flags = {}) ∧
      ∀ j ∈ r.rest, j.isReturn = false := by
  cases h with
  | signed => exact ⟨.inr ⟨rfl, rfl⟩, List.forall_mem_singleton.mpr rfl⟩
  | unsigned hkind =>
    exact ⟨.inr ⟨rfl, by rcases hkind with rfl | rfl <;> rfl⟩, List.forall_mem_singleton.mpr rfl⟩
  | mask hkind => exact ⟨.inr ⟨rfl, by rcases hkind with rfl | rfl <;> rfl⟩, by simp⟩
  | globalAddress => exact ⟨.inr ⟨rfl, rfl⟩, List.forall_mem_singleton.mpr rfl⟩
  | branch h =>
    obtain ⟨-, hfirst, hrest⟩ := operands_selectBranch h
    exact ⟨.inl hfirst, hrest⟩
  | _ => exact ⟨.inl rfl, by simp⟩

theorem operands_shiftPair (hQ : Arch.riscv32.Inherits Q) {dest source : Operand} (hdest : Q dest)
    (hsource : Q source) (amount : Nat) (right : Op) :
    ∀ j ∈ (shiftPair dest source amount right).first :: (shiftPair dest source amount right).rest,
      ∀ o ∈ j.operands, Q o := by
  have hplaces : ∀ o ∈ [Operand.immediate amount dest.ty], Q o :=
    List.forall_mem_singleton.mpr (hQ.immediate rfl)
  refine List.forall_mem_cons.mpr ⟨?_, List.forall_mem_singleton.mpr ?_⟩
  · exact List.forall_mem_cons.mpr ⟨hdest, List.forall_mem_cons.mpr ⟨hsource, hplaces⟩⟩
  · exact List.forall_mem_cons.mpr ⟨hdest, List.forall_mem_cons.mpr ⟨hdest, hplaces⟩⟩

/-- **A native form inherits what holds of all operands** of the instruction. -/
theorem Form.operands (h : Form site op r) (hQ : Arch.riscv32.Inherits Q)
    (hall : ∀ o ∈ site.instruction.operands, Q o) :
    ∀ j ∈ r.first :: r.rest, ∀ o ∈ j.operands, Q o := by
  have hoperand : ∀ {o : Operand} {k : Nat}, site.instruction.operand? k = some o → Q o :=
    fun h => hall _ (List.mem_of_getElem? h)
  cases h with
  | register | constant | compare | convert | move | load | store | stackAddress | jump | call =>
    exact List.forall_mem_singleton.mpr hall
  | subtract =>
    exact List.forall_mem_singleton.mpr (forall_mem_modify hall 2 fun _ _ => hQ.immediate rfl)
  | signed hdest hsource => exact operands_shiftPair hQ (hoperand hdest) (hoperand hsource) _ _
  | unsigned _ hdest hsource => exact operands_shiftPair hQ (hoperand hdest) (hoperand hsource) _ _
  | mask _ hdest hsource =>
    exact List.forall_mem_singleton.mpr (List.forall_mem_cons.mpr ⟨hoperand hdest,
      List.forall_mem_cons.mpr ⟨hoperand hsource, List.forall_mem_singleton.mpr (hQ.immediate rfl)⟩⟩)
  | globalAddress hdest hsymbol =>
    have hdest := hoperand hdest
    have hsymbol := List.forall_mem_singleton.mpr (hoperand hsymbol)
    exact List.forall_mem_cons.mpr ⟨List.forall_mem_cons.mpr ⟨hdest, hsymbol⟩,
      List.forall_mem_singleton.mpr
        (List.forall_mem_cons.mpr ⟨hdest, List.forall_mem_cons.mpr ⟨hdest, hsymbol⟩⟩)⟩
  | branch h => exact fun j hj o ho => hall o ((operands_selectBranch h).1 j hj ho)
  | ret => exact List.forall_mem_singleton.mpr (by simp)

end Riscv

/-! ## Both targets -/

section

variable {a : Arch} {site : Site} {op : GenericOp} {r : Replacement}

/-- **A native operation has the flags of the operation it is selected for**, and what is put behind
it jumps at most. -/
theorem nativeFlags?_of_select (h : a.target.select site op = .ok r) :
    a.nativeFlags? r.first = some op.flags ∧
      ∀ j ∈ r.rest, a.nativeFlags? j = some {} ∨ a.nativeFlags? j = some { jump := true } := by
  cases a with
  | aarch64 =>
    obtain ⟨form, hform, rfl⟩ := AArch64.select_eq_ok h
    exact hform.nativeFlags?
  | riscv32 => exact (Riscv.select_eq_ok h).nativeFlags?

theorem isReturn_of_select (h : a.target.select site op = .ok r)
    (hi : site.instruction.isReturn ↔ op = .ret) :
    (r.first.isReturn ↔ op = .ret) ∧ ∀ j ∈ r.rest, j.isReturn = false := by
  have hflags : (r.first.flags = site.instruction.flags ∨ r.first.flags = {} ∧ op.flags = {}) ∧
      ∀ j ∈ r.rest, j.isReturn = false := by
    cases a with
    | aarch64 =>
      obtain ⟨form, hform, rfl⟩ := AArch64.select_eq_ok h
      exact ⟨.inl hform.flags.1, hform.flags.2⟩
    | riscv32 => exact (Riscv.select_eq_ok h).flags
  refine ⟨?_, hflags.2⟩
  rcases hflags.1 with hsame | ⟨hnone, hop⟩
  · rwa [Instruction.isReturn, hsame]
  · refine iff_of_false (by simp [Instruction.isReturn, hnone]) ?_
    rintro rfl
    cases hop

/-- **Native code inherits what holds of all operands** of the instruction it is selected for. -/
theorem operands_of_select {Q : Operand → Prop} (h : a.target.select site op = .ok r)
    (hQ : a.Inherits Q) (hfinal : ∀ o ∈ site.instruction.operands, o.isFinal)
    (hall : ∀ o ∈ site.instruction.operands, Q o) :
    ∀ j ∈ r.first :: r.rest, ∀ o ∈ j.operands, Q o := by
  cases a with
  | aarch64 =>
    obtain ⟨form, hform, rfl⟩ := AArch64.select_eq_ok h
    obtain ⟨hfirst, hrest⟩ := List.forall_mem_cons.mp (hform.operands hQ hfinal hall)
    refine List.forall_mem_cons.mpr ⟨fun o ho => ?_, hrest⟩
    obtain ⟨o', ho', rfl⟩ := List.mem_map.mp ho
    refine hQ.congr ?_ (hfirst o' ho')
    split <;> rfl
  | riscv32 => exact (Riscv.select_eq_ok h).operands hQ hall

end

end Target

end Retarget
