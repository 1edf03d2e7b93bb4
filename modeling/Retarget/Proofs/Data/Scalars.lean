import Mathlib.Algebra.GroupWithZero.Nat
import Mathlib.Algebra.Order.BigOperators.Group.List
import Mathlib.Algebra.Order.Group.Nat
import Retarget.Ir.Ty
import Retarget.Proofs.Checked

/-!
# Where the scalars of a type lie

Elements of an array lie one stride apart and members of a struct back to back, so the scalars
inside a type cover its bytes without gap or overlap (`tiles_scalars`).  Their sizes are the leaves
of the type (`leaves_eq_map_scalars`), and the bytes they cover are its size (`extent_of_size`).
-/

namespace Retarget

theorem Word.eq_of_fit {bits n m : Nat} (h : Word.fit bits n = .ok m) : n = m := by
  rw [Word.fit] at h
  split at h
  · exact Except.ok.inj h
  · cases h

namespace Ir

/-- The bytes of one scalar inside a type. -/
structure Scalar where
  offset : Nat
  bytes : Nat

namespace Ty

variable {pointerBytes : Nat}

mutual

def extent (pointerBytes : Nat) : Ty → Nat
  | void => 0
  | int bits _ | float bits => (bits.toNat + 7) / 8
  | ptr _ => pointerBytes
  | array count element => count.toNat * extent pointerBytes element
  | struct _ fields => extentAll pointerBytes fields

/-- The number of bytes of types that lie back to back. -/
def extentAll (pointerBytes : Nat) : List Ty → Nat
  | [] => 0
  | field :: fields => extent pointerBytes field + extentAll pointerBytes fields

end

mutual

/-- The scalars of a type whose first byte is `start`, in memory order. -/
def scalars (pointerBytes start : Nat) : Ty → List Scalar
  | void => []
  | int bits _ | float bits => [⟨start, (bits.toNat + 7) / 8⟩]
  | ptr _ => [⟨start, pointerBytes⟩]
  | array count element =>
    (List.range count.toNat).flatMap fun i =>
      scalars pointerBytes (start + i * extent pointerBytes element) element
  | struct _ fields => scalarsAll pointerBytes start fields

def scalarsAll (pointerBytes start : Nat) : List Ty → List Scalar
  | [] => []
  | field :: fields =>
    scalars pointerBytes start field ++
      scalarsAll pointerBytes (start + extent pointerBytes field) fields

end

/-! ## Sizes -/

mutual

theorem extent_of_size {n : Nat} : ∀ {ty : Ty}, ty.size pointerBytes = .ok n →
    ty.extent pointerBytes = n
  | void, h | int .., h | float _, h | ptr _, h => by
    rw [size] at h
    rw [extent]
    exact Except.ok.inj h
  | array count element, h => by
    rw [size] at h
    obtain ⟨bytes, helement, h⟩ := bind_eq_ok.mp h
    rw [extent, extent_of_size helement]
    exact Word.eq_of_fit h
  | struct _ fields, h => by
    rw [size] at h
    rw [extent, extentAll_of_sizeAll h]

theorem extentAll_of_sizeAll {n : Nat} : ∀ {fields : List Ty},
    sizeAll pointerBytes fields = .ok n → extentAll pointerBytes fields = n
  | [], h => by
    rw [sizeAll] at h
    rw [extentAll]
    exact Except.ok.inj h
  | field :: fields, h => by
    rw [sizeAll] at h
    obtain ⟨bytes, hfield, h⟩ := bind_eq_ok.mp h
    obtain ⟨rest, hrest, h⟩ := bind_eq_ok.mp h
    rw [extentAll, extent_of_size hfield, extentAll_of_sizeAll hrest]
    exact Word.eq_of_fit h

end

mutual

theorem leaves_eq_map_scalars (start : Nat) : ∀ ty : Ty,
    ty.leaves pointerBytes = (ty.scalars pointerBytes start).map Scalar.bytes
  | void | int .. | float _ | ptr _ => by simp [leaves, scalars]
  | array count element => by
    have hinner (i : Nat) := leaves_eq_map_scalars (start + i * extent pointerBytes element) element
    rw [leaves, scalars, List.map_flatMap]
    simp only [← hinner]
    split
    · next hempty => simp [List.isEmpty_iff.mp hempty]
    · simp [List.flatMap_def, List.map_const']
  | struct _ fields => by rw [leaves, scalars, leavesAll_eq_map_scalarsAll start fields]

theorem leavesAll_eq_map_scalarsAll (start : Nat) : ∀ fields : List Ty,
    leavesAll pointerBytes fields = (scalarsAll pointerBytes start fields).map Scalar.bytes
  | [] => by simp [leavesAll, scalarsAll]
  | field :: fields => by
    rw [leavesAll, scalarsAll, List.map_append, leaves_eq_map_scalars start field,
      leavesAll_eq_map_scalarsAll _ fields]

end

/-! ## Positions -/

/-- From `start` to `stop`, each scalar begins where the one before it ends. -/
def Tiles (start stop : Nat) : List Scalar → Prop
  | [] => start = stop
  | s :: rest => s.offset = start ∧ Tiles (start + s.bytes) stop rest

theorem Tiles.append {start mid stop : Nat} {ss ts : List Scalar} (hss : Tiles start mid ss)
    (hts : Tiles mid stop ts) : Tiles start stop (ss ++ ts) := by
  induction ss generalizing start with
  | nil =>
    cases hss
    exact hts
  | cons s ss ih => exact ⟨hss.1, ih hss.2⟩

/-- Copies that each cover one stride cover as many strides as there are copies. -/
theorem tiles_strides {start stride : Nat} {copy : Nat → List Scalar}
    (h : ∀ i, Tiles (start + i * stride) (start + i * stride + stride) (copy i)) (count : Nat) :
    Tiles start (start + count * stride) ((List.range count).flatMap copy) := by
  induction count with
  | zero => simp [Tiles]
  | succ count ih =>
    rw [List.range_succ, List.flatMap_append, List.flatMap_singleton, Nat.succ_mul,
      ← Nat.add_assoc]
    exact ih.append (h count)

mutual

/-- **The scalars of a type cover its bytes**, one after the other. -/
theorem tiles_scalars (start : Nat) : ∀ ty : Ty,
    Tiles start (start + ty.extent pointerBytes) (ty.scalars pointerBytes start)
  | void | int .. | float _ | ptr _ => by simp [Tiles, extent, scalars]
  | array count element => by
    rw [extent, scalars]
    exact tiles_strides (fun i => tiles_scalars _ element) count.toNat
  | struct _ fields => by
    rw [extent, scalars]
    exact tiles_scalarsAll start fields

theorem tiles_scalarsAll (start : Nat) : ∀ fields : List Ty,
    Tiles start (start + extentAll pointerBytes fields) (scalarsAll pointerBytes start fields)
  | [] => by simp [Tiles, extentAll, scalarsAll]
  | field :: fields => by
    rw [extentAll, scalarsAll, ← Nat.add_assoc]
    exact (tiles_scalars start field).append (tiles_scalarsAll _ fields)

end

theorem Tiles.sum {start stop : Nat} {ss : List Scalar} (h : Tiles start stop ss) :
    start + (ss.map Scalar.bytes).sum = stop := by
  induction ss generalizing start with
  | nil => exact h
  | cons s ss ih =>
    rw [List.map_cons, List.sum_cons, ← Nat.add_assoc]
    exact ih h.2

theorem Tiles.exists_scalar {start stop k : Nat} {ss : List Scalar} (h : Tiles start stop ss)
    (hstart : start ≤ k) (hstop : k < stop) :
    ∃ (i : Nat) (s : Scalar), ss[i]? = some s ∧ s.offset ≤ k ∧ k < s.offset + s.bytes := by
  induction ss generalizing start with
  | nil =>
    cases h
    omega
  | cons s ss ih =>
    by_cases hk : k < start + s.bytes
    · exact ⟨0, s, rfl, by rw [h.1]; exact hstart, by rw [h.1]; exact hk⟩
    · obtain ⟨i, t, hi, ht⟩ := ih h.2 (Nat.le_of_not_lt hk)
      exact ⟨i + 1, t, hi, ht⟩

end Ty

end Ir

end Retarget
