import Mathlib.Data.List.Nodup
import Retarget.Pipeline

/-!
# Registers of the targets

What allocation relies on (`Target.Regular`): full-width registers are their own roots, the free
registers are distinct full-width registers, and no two argument registers share storage, the one
for the return buffer included.  Both targets are regular (`Arch.regular`).  A register at another
width is in the family that it was in before (`Arch.root_withWidth`).
-/

namespace Retarget

namespace Target

/-- No register that contains views is itself a view. -/
def Registers.HasFlatViews (rs : Registers) : Prop :=
  ∀ r ∈ rs.file, r.views ≠ [] → rs.parent? r.id = none

instance (rs : Registers) : Decidable rs.HasFlatViews :=
  inferInstanceAs (Decidable (∀ r ∈ rs.file, r.views ≠ [] → rs.parent? r.id = none))

theorem Registers.HasFlatViews.root_root {rs : Registers} (h : rs.HasFlatViews)
    (id : Machine.RegId) : rs.root (rs.root id) = rs.root id := by
  cases hp : rs.file.find? fun r => r.views.contains id with
  | none =>
    have hroot : rs.root id = id := by rw [Registers.root, Registers.parent?, hp]; rfl
    rw [hroot, hroot]
  | some r =>
    have hviews : r.views ≠ [] := by
      intro hnil
      have := List.find?_some hp
      simp [hnil] at this
    have hroot : rs.root id = r.id := by rw [Registers.root, Registers.parent?, hp]; rfl
    rw [hroot, Registers.root, h r (List.mem_of_find?_eq_some hp) hviews]
    rfl

/-- A register stands at its number, and its views are in its family. -/
structure Registers.HasOwnViews (rs : Registers) : Prop where
  id_eq : ∀ e ∈ rs.file.zipIdx, e.1.id = e.2
  root_view : ∀ r ∈ rs.file, ∀ v ∈ r.views, rs.root v = rs.root r.id

theorem Registers.betterFor_eq_or (bits : Nat) (r s : Register) :
    betterFor bits r s = r ∨ betterFor bits r s = s := by
  unfold betterFor
  repeat' split
  all_goals simp

theorem Registers.HasOwnViews.id_of_get? {rs : Registers} (h : rs.HasOwnViews)
    {id : Machine.RegId} {r : Register} (hr : rs.get? id = some r) : r.id = id :=
  h.id_eq (r, id) (List.mem_zipIdx_iff_getElem?.mpr hr)

/-- The member of a family that is best at some width is in the family. -/
theorem Registers.HasOwnViews.root_withWidth {rs : Registers} (h : rs.HasOwnViews)
    (hflat : rs.HasFlatViews) (id : Machine.RegId) (bits : Nat) :
    rs.root (rs.withWidth id bits) = rs.root id := by
  rw [withWidth]
  split
  · rfl
  · next top htop =>
    have hmem : top ∈ rs.file := List.mem_of_getElem? htop
    have hfold : ∀ (views : List Register) (r : Register),
        (∀ v ∈ r :: views, rs.root v.id = rs.root id) →
        rs.root (views.foldl (betterFor bits) r).id = rs.root id := by
      intro views
      induction views with
      | nil => exact fun r hr => hr r (by simp)
      | cons v views ih =>
        intro r hr
        refine ih (betterFor bits r v) (List.forall_mem_cons.mpr
          ⟨?_, fun w hw => hr w (by simp [hw])⟩)
        rcases betterFor_eq_or bits r v with heq | heq <;> rw [heq]
        · exact hr r (by simp)
        · exact hr v (by simp)
    have hroot : rs.root top.id = rs.root id := by rw [h.id_of_get? htop, hflat.root_root]
    refine hfold _ top (List.forall_mem_cons.mpr ⟨hroot, fun v hv => ?_⟩)
    obtain ⟨view, hview, hget⟩ := List.mem_filterMap.mp hv
    rw [h.id_of_get? hget, h.root_view top hmem view hview, hroot]

def argumentRoots (t : Target) : List Machine.RegId :=
  (t.convention.arguments ++ t.convention.floatArguments).map t.registers.root

def bufferRoot (t : Target) : Machine.RegId := t.registers.root t.registers.returnBuffer

def allocatable (t : Target) : List Machine.RegId :=
  t.convention.callerSaved ++ t.convention.calleeSaved

/-- The facts about registers that allocation relies on. -/
structure Regular (t : Target) : Prop where
  flat : t.registers.HasFlatViews
  allocatable_nodup : t.allocatable.Nodup
  root_allocatable : ∀ r ∈ t.allocatable, t.registers.root r = r
  arguments_nodup : t.argumentRoots.Nodup
  buffer_apart : t.bufferRoot ∉ t.argumentRoots

end Target

theorem Arch.regular (a : Arch) : a.target.Regular := by
  cases a with
  | aarch64 => exact ⟨by decide +kernel, by decide +kernel, by decide +kernel, by decide +kernel,
      by decide +kernel⟩
  | riscv32 => exact ⟨by decide +kernel, by decide +kernel, by decide +kernel, by decide +kernel,
      by decide +kernel⟩

/-- The largest aggregate that travels in registers is far from the largest there is. -/
theorem Arch.maxAggregateBits_lt (a : Arch) :
    a.target.convention.maxAggregateBits < Word.modulus 64 := by
  cases a <;> decide

theorem Arch.hasOwnViews (a : Arch) : a.target.registers.HasOwnViews := by
  cases a with
  | aarch64 => exact ⟨by decide +kernel, by decide +kernel⟩
  | riscv32 => exact ⟨by decide +kernel, by decide +kernel⟩

theorem Arch.root_withWidth (a : Arch) (id : Machine.RegId) (bits : Nat) :
    a.target.registers.root (a.target.registers.withWidth id bits) = a.target.registers.root id :=
  a.hasOwnViews.root_withWidth a.regular.flat id bits

end Retarget
