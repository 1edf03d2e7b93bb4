import Mathlib.Data.List.Perm.Basic
import Retarget.LiveRange

/-!
# Live ranges are hulls

A live range runs from the first to the last instruction that mentions its register, and from the
start of the function for a parameter (`LiveRange.IsHull`).  `Function.liveRanges_hulls` says that
the computed ranges are these hulls, one for each register that occurs, and
`Function.liveRanges_sorted` that they come in the order of allocation.
-/

namespace Retarget.Machine

/-- The ids in an instruction that still need a register. -/
def Instruction.ids (i : Instruction) : List RegId := i.operands.filterMap (·.unallocated?)

/-- The `n`-th of the instructions mentions `id`. -/
def OccursAt (is : List Instruction) (id : RegId) (n : Nat) : Prop :=
  ∃ i, is[n]? = some i ∧ id ∈ i.ids

namespace LiveRange

/-- The range is the hull of the places where its register occurs. -/
structure IsHull (params : List RegId) (occ : RegId → Nat → Prop) (r : LiveRange) : Prop where
  covers : ∀ n, occ r.reg n → r.start ≤ n ∧ n ≤ r.stop
  start_param : r.reg ∈ params → r.start = 0
  start_occ : r.reg ∉ params → occ r.reg r.start
  stop_occ : occ r.reg r.stop ∨ r.reg ∈ params ∧ r.stop = 0

/-- One hull for each register that is a parameter or occurs. -/
structure Hulls (params : List RegId) (occ : RegId → Nat → Prop) (ranges : List LiveRange) :
    Prop where
  nodup : (ranges.map (·.reg)).Nodup
  mem_iff : ∀ id, id ∈ ranges.map (·.reg) ↔ id ∈ params ∨ ∃ n, occ id n
  hull : ∀ r ∈ ranges, IsHull params occ r

variable {params : List RegId} {occ occ' : RegId → Nat → Prop} {ranges ranges' : List LiveRange}

theorem Hulls.congr (h : Hulls params occ ranges) (hocc : ∀ id n, occ id n ↔ occ' id n) :
    Hulls params occ' ranges := by
  have heq : occ = occ' := funext fun id => funext fun n => propext (hocc id n)
  exact heq ▸ h

theorem Hulls.perm (h : Hulls params occ ranges) (hp : ranges'.Perm ranges) :
    Hulls params occ ranges' where
  nodup := (hp.map _).nodup_iff.mpr h.nodup
  mem_iff id := by rw [(hp.map _).mem_iff, h.mem_iff]
  hull r hr := h.hull r (hp.mem_iff.mp hr)

/-! ## One occurrence -/

theorem map_reg_extend (reg : RegId) (c : Option RegClass) (n : Nat) (rs : List LiveRange) :
    (extend reg c n rs).map (·.reg) =
      if reg ∈ rs.map (·.reg) then rs.map (·.reg) else rs.map (·.reg) ++ [reg] := by
  induction rs with
  | nil => simp [extend]
  | cons r rs ih =>
    rw [extend]
    split
    · next h => simp [h]
    · next h =>
      rw [List.map_cons, ih, List.map_cons]
      have hne : reg ≠ r.reg := Ne.symm h
      by_cases hmem : reg ∈ rs.map (·.reg)
      · rw [if_pos hmem, if_pos (List.mem_cons_of_mem _ hmem)]
      · rw [if_neg hmem, if_neg (by simpa [hne] using hmem), List.cons_append]

/-- A range after an occurrence of `reg` is an old one of another register, the old one of `reg`
with a later stop and perhaps a class, or a new one. -/
theorem mem_extend {reg : RegId} {c : Option RegClass} {n : Nat} {rs : List LiveRange}
    {r : LiveRange} (hnodup : (rs.map (·.reg)).Nodup) (hr : r ∈ extend reg c n rs) :
    (r ∈ rs ∧ r.reg ≠ reg) ∨
    (∃ old ∈ rs, old.reg = reg ∧
      r = { old with stop := max old.stop n, regClass := old.regClass <|> c }) ∨
    (reg ∉ rs.map (·.reg) ∧ r = ⟨reg, c, n, n⟩) := by
  induction rs with
  | nil =>
    rw [extend, List.mem_singleton] at hr
    exact .inr (.inr ⟨by simp, hr⟩)
  | cons s rs ih =>
    rw [List.map_cons, List.nodup_cons] at hnodup
    rw [extend] at hr
    split at hr
    · next h =>
      rcases List.mem_cons.mp hr with rfl | hr
      · exact .inr (.inl ⟨s, by simp, h, rfl⟩)
      · refine .inl ⟨by simp [hr], fun he => hnodup.1 ?_⟩
        rw [h, ← he]
        exact List.mem_map_of_mem hr
    · next h =>
      rcases List.mem_cons.mp hr with rfl | hr
      · exact .inl ⟨by simp, h⟩
      · rcases ih hnodup.2 hr with ⟨hmem, hne⟩ | ⟨old, hold, hrest⟩ | ⟨hnew, hrest⟩
        · exact .inl ⟨by simp [hmem], hne⟩
        · exact .inr (.inl ⟨old, by simp [hold], hrest⟩)
        · refine .inr (.inr ⟨?_, hrest⟩)
          simpa [Ne.symm h] using hnew

theorem Hulls.extend (h : Hulls params occ ranges) (reg : RegId) (c : Option RegClass) (n : Nat)
    (hlast : ∀ id m, occ id m → m ≤ n) :
    Hulls params (fun id m => occ id m ∨ id = reg ∧ m = n) (extend reg c n ranges) := by
  refine ⟨?_, fun id => ?_, fun r hr => ?_⟩
  · rw [map_reg_extend]
    split
    · exact h.nodup
    · next hnew =>
      exact List.nodup_append.mpr ⟨h.nodup, by simp, fun a ha b hb he =>
        hnew (by rw [List.mem_singleton] at hb; rwa [← hb, ← he])⟩
  · have hmem := h.mem_iff id
    rw [map_reg_extend]
    by_cases hid : id = reg
    · subst hid
      refine iff_of_true ?_ (.inr ⟨n, .inr ⟨rfl, rfl⟩⟩)
      split
      · next hin => exact hin
      · simp
    · have : (∃ m, occ id m ∨ id = reg ∧ m = n) ↔ ∃ m, occ id m := by simp [hid]
      rw [this, ← hmem]
      split <;> simp [hid]
  · rcases mem_extend h.nodup hr with ⟨hmem, hne⟩ | ⟨old, hold, rfl, rfl⟩ | ⟨hnew, rfl⟩
    · obtain ⟨hcov, hsp, hso, hst⟩ := h.hull r hmem
      refine ⟨fun m hm => hcov m ?_, hsp, fun hp => .inl (hso hp), hst.imp .inl id⟩
      exact hm.resolve_right fun hm => hne hm.1
    · obtain ⟨hcov, hsp, hso, hst⟩ := h.hull old hold
      have hle : old.start ≤ n := by
        by_cases hp : old.reg ∈ params
        · rw [hsp hp]
          exact Nat.zero_le _
        · exact hlast _ _ (hso hp)
      refine ⟨?_, hsp, fun hp => .inl (hso hp), .inl ?_⟩
      · rintro m (hm | ⟨-, rfl⟩)
        · exact ⟨(hcov m hm).1, Nat.le_trans (hcov m hm).2 (Nat.le_max_left _ _)⟩
        · exact ⟨hle, Nat.le_max_right _ _⟩
      · refine .inr ⟨rfl, Nat.max_eq_right ?_⟩
        rcases hst with hst | ⟨-, hst⟩
        · exact hlast _ _ hst
        · exact hst ▸ Nat.zero_le n
    · have hno : reg ∉ params ∧ ∀ m, ¬ occ reg m := by
        have := (h.mem_iff reg).not.mp hnew
        push Not at this
        exact this
      refine ⟨?_, fun hp => absurd hp hno.1, fun _ => .inr ⟨rfl, rfl⟩, .inl (.inr ⟨rfl, rfl⟩)⟩
      rintro m (hm | ⟨-, rfl⟩)
      · exact absurd hm (hno.2 m)
      · exact ⟨Nat.le_refl _, Nat.le_refl _⟩

/-! ## All occurrences -/

theorem Hulls.visitOperands (n : Nat) (os : List Operand) (h : Hulls params occ ranges)
    (hlast : ∀ id m, occ id m → m ≤ n) :
    Hulls params (fun id m => occ id m ∨ id ∈ os.filterMap (·.unallocated?) ∧ m = n)
      (os.foldl (visitOperand n) ranges) := by
  induction os generalizing occ ranges with
  | nil => exact h.congr (by simp)
  | cons o os ih =>
    rw [List.foldl_cons, visitOperand]
    cases ho : o.unallocated? with
    | none =>
      refine (ih h hlast).congr fun id m => ?_
      rw [List.filterMap_cons_none ho]
    | some reg =>
      have hstep := h.extend reg (if o.isMemory then none else o.regClass) n hlast
      refine (ih hstep ?_).congr fun id m => ?_
      · rintro id m (hm | ⟨-, rfl⟩)
        · exact hlast id m hm
        · exact Nat.le_refl _
      · rw [List.filterMap_cons_some ho, List.mem_cons, or_and_right, or_assoc]

theorem Hulls.visitInstructions (is : List Instruction) (k : Nat) (h : Hulls params occ ranges)
    (hlast : ∀ id m, occ id m → m < k) :
    Hulls params (fun id m => occ id m ∨ ∃ j, m = k + j ∧ OccursAt is id j)
      ((is.zipIdx k).foldl
        (fun ranges (i, index) => i.operands.foldl (visitOperand index) ranges) ranges) := by
  induction is generalizing occ ranges k with
  | nil => exact h.congr (by simp [OccursAt])
  | cons i is ih =>
    rw [List.zipIdx_cons, List.foldl_cons]
    have hstep := h.visitOperands k i.operands fun id m hm => Nat.le_of_lt (hlast id m hm)
    refine (ih (k + 1) hstep ?_).congr fun id m => ?_
    · rintro id m (hm | ⟨-, rfl⟩)
      · exact Nat.lt_succ_of_lt (hlast id m hm)
      · exact Nat.lt_succ_self _
    · rw [or_assoc]
      refine or_congr Iff.rfl ⟨?_, ?_⟩
      · rintro (⟨hid, rfl⟩ | ⟨j, rfl, hj⟩)
        · exact ⟨0, rfl, i, rfl, hid⟩
        · exact ⟨j + 1, by omega, hj⟩
      · rintro ⟨j, rfl, hj⟩
        cases j with
        | zero =>
          obtain ⟨i', hi', hid⟩ := hj
          cases hi'
          exact .inl ⟨hid, rfl⟩
        | succ j => exact .inr ⟨j, by omega, hj⟩

/-! ## The order of allocation -/

theorem interferes_comm (a b : LiveRange) : a.interferes b = b.interferes a :=
  Bool.and_comm _ _

theorem precedes_total {a b : LiveRange} (h : ¬ a.precedes b) : b.precedes a := by
  simp only [precedes, Bool.or_eq_true, Bool.and_eq_true, decide_eq_true_eq, beq_iff_eq] at h ⊢
  grind

theorem precedes_trans {a b c : LiveRange} (hab : a.precedes b) (hbc : b.precedes c) :
    a.precedes c := by
  simp only [precedes, Bool.or_eq_true, Bool.and_eq_true, decide_eq_true_eq, beq_iff_eq] at *
  grind

theorem start_le_of_precedes {a b : LiveRange} (h : a.precedes b) : a.start ≤ b.start := by
  simp only [precedes, Bool.or_eq_true, Bool.and_eq_true, decide_eq_true_eq, beq_iff_eq] at h
  omega

theorem insert_perm (r : LiveRange) (rs : List LiveRange) : (insert r rs).Perm (r :: rs) := by
  induction rs with
  | nil => exact List.Perm.refl _
  | cons s rs ih =>
    rw [insert]
    split
    · exact List.Perm.refl _
    · exact (ih.cons s).trans (List.Perm.swap r s rs)

theorem insert_sorted (r : LiveRange) {rs : List LiveRange}
    (h : rs.Pairwise fun a b => a.precedes b) :
    (insert r rs).Pairwise fun a b => a.precedes b := by
  induction rs with
  | nil => simp [insert]
  | cons s rs ih =>
    obtain ⟨hs, hrs⟩ := List.pairwise_cons.mp h
    rw [insert]
    split
    · next hle =>
      refine List.pairwise_cons.mpr ⟨fun b hb => ?_, h⟩
      rcases List.mem_cons.mp hb with rfl | hb
      · exact hle
      · exact precedes_trans hle (hs b hb)
    · next hgt =>
      refine List.pairwise_cons.mpr ⟨fun b hb => ?_, ih hrs⟩
      rcases List.mem_cons.mp ((insert_perm r rs).mem_iff.mp hb) with rfl | hb
      · exact precedes_total hgt
      · exact hs b hb

theorem foldr_insert_perm (rs : List LiveRange) : (rs.foldr insert []).Perm rs := by
  induction rs with
  | nil => exact List.Perm.refl _
  | cons r rs ih => exact (insert_perm r _).trans (ih.cons r)

theorem foldr_insert_sorted (rs : List LiveRange) :
    (rs.foldr insert []).Pairwise fun a b => a.precedes b := by
  induction rs with
  | nil => exact List.Pairwise.nil
  | cons r rs ih => exact insert_sorted r ih

end LiveRange

namespace Function

open LiveRange (Hulls)

def paramIds (f : Function) : List RegId := f.params.map (·.id)

theorem nodup_eraseDups (ids : List RegId) : ids.eraseDups.Nodup := by
  induction h : ids.length using Nat.strongRecOn generalizing ids with
  | ind n ih =>
    cases ids with
    | nil => simp
    | cons id ids =>
      have hle := List.length_filter_le (fun b => !b == id) ids
      rw [List.length_cons] at h
      rw [List.eraseDups_cons, List.nodup_cons]
      exact ⟨by simp, ih _ (by omega) _ rfl⟩

/-- **The live ranges of a function are the hulls of its ids**, one for each. -/
theorem liveRanges_hulls (f : Function) :
    Hulls f.paramIds (OccursAt f.instructions) f.liveRanges := by
  have hstart : Hulls f.paramIds (fun _ _ => False)
      ((f.params.map (·.id)).eraseDups.map fun id => ⟨id, none, 0, 0⟩) := by
    refine ⟨?_, fun id => ?_, fun r hr => ?_⟩
    · rw [List.map_map]
      exact (List.map_id _).symm ▸ nodup_eraseDups _
    · simp [paramIds]
    · obtain ⟨id, hid, rfl⟩ := List.mem_map.mp hr
      rw [List.mem_eraseDups] at hid
      exact ⟨by simp, fun _ => rfl, fun hp => absurd hid hp, .inr ⟨hid, rfl⟩⟩
  have hall := hstart.visitInstructions f.instructions 0 (by simp)
  refine (hall.perm (LiveRange.foldr_insert_perm _)).congr fun id n => ?_
  simp

theorem liveRanges_sorted (f : Function) :
    f.liveRanges.Pairwise fun a b => a.start ≤ b.start :=
  (LiveRange.foldr_insert_sorted _).imp LiveRange.start_le_of_precedes

end Function

end Retarget.Machine
