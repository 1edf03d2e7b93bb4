import Retarget.Proofs.Stack.Steady

/-!
# Registers that native code names

Selection puts native operations over registers of the instruction it selects, in views of their own
width, and only a call becomes a call.  So native code names no full-width register that the
allocated code does not name (`from_select`).
-/

namespace Retarget

open Machine Target

def Arch.calls (a : Arch) (i : Instruction) : Bool :=
  match i.opcode with
  | .generic op => op.flags.call
  | .native number => a.target.templates[number]?.any (·.flags.call)

namespace Machine

def Operand.root? (t : Target) (o : Operand) : Option RegId :=
  match o.kind with
  | .physicalReg reg => some (t.registers.root reg)
  | _ => none

theorem Operand.root?_congr {t : Target} {o o' : Operand} (h : o.kind = o'.kind) :
    o.root? t = o'.root? t := by
  rw [root?, root?, h]

theorem Function.physicalRoots_eq (t : Target) (i : Instruction) :
    physicalRoots t i = i.operands.filterMap (·.root? t) := by
  rw [physicalRoots, List.filterMap_filter]
  refine List.filterMap_congr fun o _ => ?_
  obtain ⟨kind, ty, regClass⟩ := o
  cases kind <;> rfl

theorem Function.mem_physicalRoots {t : Target} {i : Instruction} {reg : RegId} :
    reg ∈ physicalRoots t i ↔ ∃ o ∈ i.operands, o.root? t = some reg := by
  rw [physicalRoots_eq, List.mem_filterMap]

namespace Instruction

variable {a : Arch} {i j : Instruction} {o : Operand}

/-- The operand names no register that the instruction does not name. -/
def Names (a : Arch) (i : Instruction) (o : Operand) : Prop :=
  ∀ reg, o.root? a.target = some reg → reg ∈ Function.physicalRoots a.target i

theorem names_of_mem (h : o ∈ i.operands) : i.Names a o :=
  fun _ hreg => Function.mem_physicalRoots.mpr ⟨o, h, hreg⟩

/-- The instruction names no register that `i` does not name, and is a call only if `i` is. -/
structure From (a : Arch) (i j : Instruction) : Prop where
  names : ∀ o ∈ j.operands, i.Names a o
  calls : a.calls j → a.calls i

theorem From.refl (i : Instruction) : From a i i := ⟨fun _ => names_of_mem, id⟩

theorem calls_eq {op : GenericOp} (h : i.generic? = some op) : a.calls i = op.flags.call := by
  rw [Arch.calls, generic?_eq_some h]

end Instruction

end Machine

theorem Arch.inherits_names (a : Arch) (i : Instruction) : a.Inherits (i.Names a) where
  congr hkind ho reg hreg := ho reg ((Operand.root?_congr hkind).trans hreg)
  immediate himmediate reg hreg := by
    rw [Operand.root?] at hreg
    rw [Operand.isImmediate] at himmediate
    split at hreg
    · next hkind =>
      rw [hkind] at himmediate
      cases himmediate
    · cases hreg
  view bits hkind hview ho reg hreg := by
    refine ho reg (Eq.trans ?_ hreg)
    rw [Operand.root?, Operand.root?, hkind, hview]
    exact congrArg some (a.root_withWidth _ bits).symm

theorem Arch.calls_of_nativeFlags? {a : Arch} {i : Instruction} {flags : Flags}
    (h : a.nativeFlags? i = some flags) : a.calls i = flags.call := by
  rw [nativeFlags?] at h
  rw [calls]
  cases hcode : i.opcode with
  | generic op => simp [hcode] at h
  | native n =>
    rw [hcode] at h
    obtain ⟨template, htemplate, rfl⟩ := Option.map_eq_some_iff.mp h
    show (a.target.templates[n]?.any (·.flags.call)) = template.flags.call
    rw [htemplate, Option.any_some]

namespace Target

open Instruction

variable {a : Arch} {site : Site} {op : GenericOp} {r : Replacement}

/-- **Selection names no new register and makes no new calls.** -/
theorem from_select (hop : site.instruction.generic? = some op)
    (hfinal : ∀ o ∈ site.instruction.operands, o.isFinal) (h : a.target.select site op = .ok r) :
    ∀ j ∈ r.first :: r.rest, site.instruction.From a j := by
  have hnames := operands_of_select h (a.inherits_names site.instruction) hfinal
    fun _ => names_of_mem
  obtain ⟨hfirst, hrest⟩ := nativeFlags?_of_select h
  rw [List.forall_mem_cons] at hnames ⊢
  refine ⟨⟨hnames.1, fun hcall => ?_⟩, fun j hj => ⟨hnames.2 j hj, fun hcall => ?_⟩⟩
  · rwa [calls_eq hop, ← Arch.calls_of_nativeFlags? hfirst]
  · rcases hrest j hj with hflags | hflags <;>
      cases (Arch.calls_of_nativeFlags? hflags).symm.trans hcall

theorem AArch64.from_narrowSource (i : Instruction) : i.From .aarch64 (narrowSource registers i) := by
  rw [narrowSource]
  split
  · refine ⟨forall_mem_modify (fun _ => names_of_mem) 1 fun o ho => ?_, id⟩
    have ho : i.Names .aarch64 o := names_of_mem (List.mem_of_getElem? ho)
    split
    · next hkind =>
      split
      · exact (Arch.aarch64.inherits_names i).view 32 hkind rfl ho
      · exact ho
    · exact ho
  · exact .refl i

end Target

end Retarget
