import Retarget.Proofs.Registers
import Retarget.Proofs.Selection.Insertions
import Retarget.Proofs.Selection.Operands
import Retarget.Proofs.Stack.Reserved

/-!
# The stack pointer in native code

Selection puts a native operation over operands of the instruction it selects, or constants, and a
return becomes a return and nothing else does.  So native code keeps off the stack pointer like the
allocated code it comes from (`steady_select`), all through the walk over a function
(`All.selectInstructions`).
-/

namespace Retarget

open Machine Target

theorem Arch.inherits_not_isStackPointer (a : Arch) :
    a.Inherits fun o => ¬o.IsStackPointer a.target where
  congr hkind ho hsp := ho (hkind.trans hsp)
  immediate := not_isStackPointer_of_isImmediate
  view bits hkind hview ho hsp :=
    a.reserved.withWidth_ne (fun hreg => ho (hkind.trans (congrArg _ hreg))) bits
      (Operand.Kind.physicalReg.inj (hview.symm.trans hsp))

theorem Arch.role_iff_of_nativeFlags? {a : Arch} {i : Instruction} {flags : Flags}
    (h : a.nativeFlags? i = some flags) : (a.role i = .ret ↔ flags.ret) ∧
      (a.role i = .load ↔ flags.load) ∧ (a.role i = .store ↔ flags.store) := by
  rw [Arch.nativeFlags?] at h
  split at h
  · cases h
  · next number hcode =>
    have hnative : a.role i = a.nativeRole number := by rw [role, hcode]
    rw [hnative]
    cases a with
    | aarch64 =>
      change Option.map _ AArch64.templates[number]? = _ at h
      rw [AArch64.templates, List.getElem?_map, Option.map_map] at h
      obtain ⟨op, hop, rfl⟩ := Option.map_eq_some_iff.mp h
      have hrole : Arch.aarch64.nativeRole number = op.role := by
        rw [nativeRole.eq_def, hop]
        rfl
      rw [hrole]
      cases op <;> decide
    | riscv32 =>
      change Option.map _ Riscv.templates[number]? = _ at h
      rw [Riscv.templates, List.getElem?_map, Option.map_map] at h
      obtain ⟨op, hop, rfl⟩ := Option.map_eq_some_iff.mp h
      have hrole : Arch.riscv32.nativeRole number = op.role := by
        rw [nativeRole.eq_def, hop]
        rfl
      rw [hrole]
      cases op <;> decide

namespace Target

variable {a : Arch} {site : Site} {op : GenericOp} {r : Replacement} {Q : Operand → Prop}

theorem steady_native {i : Instruction} {flags : Flags} (h : a.nativeFlags? i = some flags)
    (hret : i.isReturn ↔ flags.ret) (hhead : ∀ o ∈ i.operands.head?, ¬o.IsStackPointer a.target) :
    i.Steady a := by
  have hgeneric : ∀ op, i.opcode ≠ .generic op := by
    intro op hop
    rw [Arch.nativeFlags?, hop] at h
    cases h
  refine ⟨?_, hhead, fun op hop => absurd hop (hgeneric op)⟩
  rw [hret, ← (Arch.role_iff_of_nativeFlags? h).1]
  exact ⟨.inr, fun h => h.resolve_left (hgeneric .ret)⟩

theorem head?_modify_zero (os : List Operand) (change : Operand → Operand) :
    (os.modify 0 change).head? = os.head?.map change := by
  cases os <;> rfl

/-- Where an instruction has a place, its native form starts with the same operand, or another view
of it. -/
theorem AArch64.Form.head? (h : Form registers site op r) (hplace : op.hasPlace)
    (hQ : Arch.aarch64.Inherits Q) (hfinal : ∀ o ∈ site.instruction.operands, o.isFinal)
    (hhead : ∀ o ∈ site.instruction.operands.head?, Q o) :
    ∀ j ∈ r.first :: r.rest, ∀ o ∈ j.operands.head?, Q o := by
  cases h with
  | load | store | stackAddress => exact List.forall_mem_singleton.mpr hhead
  | zextLoad hdest hsource hwidth hreg =>
    refine List.forall_mem_singleton.mpr fun o ho => ?_
    have hmem := List.mem_of_getElem? hdest
    rw [Instruction.operands_modifyOperand, Instruction.operands_setOpcode,
      head?_modify_zero] at ho
    obtain ⟨o', -, rfl⟩ := Option.map_eq_some_iff.mp ho
    exact inherits_narrowTo32 hQ (hhead _ (List.head?_eq_getElem?.trans hdest)) (hfinal _ hmem)
      hreg o'
  | register hforms | constant hforms => cases op <;> cases hforms <;> cases hplace
  | compare hkind | fused hkind =>
    rcases hkind with ⟨rfl, -⟩ | ⟨rfl, -⟩ <;> cases hplace
  | smallConstant hkind | wideConstant hkind => rcases hkind with rfl | rfl | rfl <;> cases hplace
  | move hkind => rcases hkind with rfl | rfl <;> cases hplace
  | convert hkind => rcases hkind with rfl | rfl | rfl | rfl | rfl <;> cases hplace
  | _ => cases hplace

theorem Riscv.Form.head? (h : Form site op r) (hplace : op.hasPlace)
    (hhead : ∀ o ∈ site.instruction.operands.head?, Q o) :
    ∀ j ∈ r.first :: r.rest, ∀ o ∈ j.operands.head?, Q o := by
  cases h with
  | load | store | stackAddress => exact List.forall_mem_singleton.mpr hhead
  | register hforms | constant hforms => cases op <;> cases hforms <;> cases hplace
  | convert hkind => rcases hkind with rfl | rfl | rfl <;> cases hplace
  | unsigned hkind | mask hkind | move hkind => rcases hkind with rfl | rfl <;> cases hplace
  | _ => cases hplace

theorem head?_of_select (h : a.target.select site op = .ok r) (hplace : op.hasPlace)
    (hQ : a.Inherits Q) (hfinal : ∀ o ∈ site.instruction.operands, o.isFinal)
    (hhead : ∀ o ∈ site.instruction.operands.head?, Q o) :
    ∀ j ∈ r.first :: r.rest, ∀ o ∈ j.operands.head?, Q o := by
  cases a with
  | aarch64 =>
    obtain ⟨form, hform, rfl⟩ := AArch64.select_eq_ok h
    obtain ⟨hfirst, hrest⟩ := List.forall_mem_cons.mp (hform.head? hplace hQ hfinal hhead)
    refine List.forall_mem_cons.mpr ⟨fun o ho => ?_, hrest⟩
    rw [AArch64.widenRegisters, Instruction.operands_withOperands, List.head?_map] at ho
    obtain ⟨o', ho', rfl⟩ := Option.map_eq_some_iff.mp ho
    refine hQ.congr ?_ (hfirst o' ho')
    split <;> rfl
  | riscv32 => exact (Riscv.select_eq_ok h).head? hplace hhead

/-- **Selection keeps off the stack pointer.** -/
theorem steady_select (hop : site.instruction.opcode = .generic op)
    (hi : site.instruction.Steady a) (hfinal : ∀ o ∈ site.instruction.operands, o.isFinal)
    (h : a.target.select site op = .ok r) : ∀ j ∈ r.first :: r.rest, j.Steady a := by
  have hret : site.instruction.isReturn ↔ op = .ret := by
    rw [hi.returns, hop, Arch.role, hop]
    simp
  have hhead : ∀ j ∈ r.first :: r.rest, ∀ o ∈ j.operands.head?, ¬o.IsStackPointer a.target := by
    cases hplace : op.hasPlace with
    | true => exact head?_of_select h hplace a.inherits_not_isStackPointer hfinal hi.head
    | false =>
      have hall := operands_of_select h a.inherits_not_isStackPointer hfinal
        (hi.apart op hop hplace)
      exact fun j hj o ho => hall j hj o (List.mem_of_mem_head? ho)
  obtain ⟨hfirst, hrest⟩ := nativeFlags?_of_select h
  obtain ⟨hmarked, hunmarked⟩ := isReturn_of_select h hret
  rw [List.forall_mem_cons] at hhead ⊢
  refine ⟨steady_native hfirst (hmarked.trans ?_) hhead.1, fun j hj => ?_⟩
  · cases op <;> decide
  · rcases hrest j hj with hflags | hflags <;>
      exact steady_native hflags (by simp [hunmarked j hj]) (hhead.2 j hj)

theorem AArch64.steady_narrowSource {i : Instruction} (h : i.Steady .aarch64) :
    (narrowSource registers i).Steady .aarch64 := by
  rw [narrowSource]
  split
  · next hcode =>
    have hnative : ∀ op, i.opcode ≠ .generic op := by
      intro op hop
      simp [hop, Op.opcode] at hcode
    refine ⟨h.returns, fun o ho => h.head o ?_, fun op hop => absurd hop (hnative op)⟩
    rw [Instruction.operands_modifyOperand] at ho
    cases hops : i.operands with
    | nil => simp [hops] at ho
    | cons dest rest => simpa [hops] using ho
  · exact h

end Target

namespace Machine.Function

variable {a : Arch} {f g : Function} {P Q : Instruction → Prop}

theorem All.fixUp (hnarrow : a = .aarch64 → ∀ i, Q i → Q (AArch64.narrowSource AArch64.registers i))
    (hf : f.All Q) : (a.target.fixUp f).All Q := by
  cases a with
  | riscv32 => exact hf
  | aarch64 =>
    intro i hi
    obtain ⟨b, hb, hi⟩ := mem_instructions.mp hi
    obtain ⟨block, hblock, rfl⟩ := List.mem_map.mp hb
    obtain ⟨j, hj, rfl⟩ := List.mem_map.mp hi
    exact hnarrow rfl j (hf j (mem_instructions.mpr ⟨block, hblock, hj⟩))

/-- What holds of all that instructions become, and stays true when a source is narrowed, holds of
native code. -/
theorem All.selectInstructions (hf : f.All P)
    (hbecomes : ∀ i new, P i → Becomes a.target i new → ∀ j ∈ new, Q j)
    (hnarrow : a = .aarch64 → ∀ i, Q i → Q (AArch64.narrowSource AArch64.registers i))
    (h : f.selectInstructions a.target = .ok g) : g.All Q := by
  rw [selectInstructions_eq h]
  refine All.fixUp hnarrow fun j hj => ?_
  obtain ⟨b, k, i, hi, hj⟩ := exists_instruction?_of_mem_rewrite hj
  exact hbecomes i _ (hf i (mem_of_instruction? hi)) ⟨_, _, _, became h hi⟩ j hj

theorem selectInstructions_eq_withBlocks (h : f.selectInstructions a.target = .ok g) :
    g = { f with blocks := g.blocks } := by
  rw [selectInstructions_eq h]
  cases a <;> rfl

theorem frame_selectInstructions (h : f.selectInstructions a.target = .ok g) :
    g.frame = f.frame := by
  rw [selectInstructions_eq_withBlocks h]

/-- The code keeps off the stack pointer and is allocated. -/
def Kept (a : Arch) (f : Function) : Prop := f.All fun i => i.Steady a ∧ i.Allocated a.target

/-- **Native code keeps off the stack pointer** like the allocated code it comes from. -/
theorem Kept.selectInstructions (hf : f.Kept a) (h : f.selectInstructions a.target = .ok g) :
    g.All (·.Steady a) ∧ g.registersToSave a.target = f.registersToSave a.target := by
  refine ⟨All.selectInstructions hf (fun i new hi hnew => ?_) (fun ha i hi => ?_) h, ?_⟩
  · obtain ⟨_, _, _, ⟨-, rfl⟩ | ⟨op, r, hop, hr, rfl⟩⟩ := hnew
    · exact List.forall_mem_singleton.mpr hi.1
    · exact steady_select (Instruction.generic?_eq_some hop) hi.1 hi.2.final hr
  · subst ha
    exact AArch64.steady_narrowSource hi
  · rw [selectInstructions_eq_withBlocks h]
    rfl

end Machine.Function

end Retarget
