import Mathlib.Data.List.Rotate
import Mathlib.Tactic.SplitIfs
import Retarget.Target.AArch64.LogicalImmediate

/-!
# Bitmasks

The bitwise instructions of AArch64 take a constant in which an element of 2 to 64 bits is repeated
that holds a run of ones, turned by some number of places (`IsBitmask`).  What legalization accepts
is one (`isBitmask_of_isLogicalImmediate`), and it accepts all of them (`isLogicalImmediate_iff`).

A run is recognized by comparing the number of ones with the length of the run that a rotated
element ends with.  Rotation moves bits around and keeps their number
(`popCount_rotateRight`), so all ones of the rotated element are in that run (`testBit_of_run`).
-/

namespace Retarget.Target.AArch64

variable {size width n r i : Nat}

/-- A word of `width` bits repeats an element of fewer or as many bits, in which `ones` ones at the
low end are turned right by `turn` places. -/
def IsBitmask (width word : Nat) : Prop :=
  ∃ size ∈ [2, 4, 8, 16, 32, 64], size ≤ width ∧ ∃ ones < size, 0 < ones ∧ ∃ turn < size,
    ∀ k < width, word.testBit k = decide ((k + turn) % size < ones)

instance (width word : Nat) : Decidable (IsBitmask width word) := by
  unfold IsBitmask
  infer_instance

/-! ## Rotation -/

theorem testBit_mod_modulus (n bits i : Nat) :
    (n % Word.modulus bits).testBit i = (decide (i < bits) && n.testBit i) :=
  Nat.testBit_mod_two_pow n bits i

theorem testBit_of_lt_modulus (h : n < Word.modulus width) (hi : width ≤ i) : n.testBit i = false :=
  Nat.testBit_lt_two_pow (Nat.lt_of_lt_of_le h (Nat.pow_le_pow_right (by decide) hi))

/-- Every bit of a word that is turned right comes from `r` places further up. -/
theorem testBit_rotateRight (hn : n < Word.modulus width) (hr : r < width) (hi : i < width) :
    (rotateRight width n r).testBit i = n.testBit ((i + r) % width) := by
  rw [rotateRight, testBit_mod_modulus, decide_eq_true hi, Bool.true_and, Nat.testBit_or,
    Nat.testBit_shiftRight, Nat.testBit_shiftLeft]
  by_cases hwrap : i + r < width
  · rw [Nat.mod_eq_of_lt hwrap, Nat.add_comm r i, decide_eq_false (by omega), Bool.false_and,
      Bool.or_false]
  · rw [Nat.mod_eq_sub_mod (Nat.le_of_not_lt hwrap), Nat.mod_eq_of_lt (by omega),
      testBit_of_lt_modulus hn (by omega), Bool.false_or, decide_eq_true (by omega), Bool.true_and]
    congr 1
    omega

/-- Turning a word changes the order of its bits only. -/
theorem popCount_rotateRight (hn : n < Word.modulus width) (hr : r < width) :
    popCount width (rotateRight width n r) = popCount width n := by
  have hturned : (List.range width).map (fun i => (i + r) % width) = (List.range width).rotate r := by
    refine List.ext_getElem (by simp) fun i hi hi' => ?_
    rw [List.getElem_rotate]
    simp
  have hbits : ∀ i ∈ List.range width,
      (rotateRight width n r).testBit i ↔ (n.testBit ∘ fun i => (i + r) % width) i := by
    intro i hi
    rw [testBit_rotateRight hn hr (List.mem_range.mp hi)]
    rfl
  rw [popCount, popCount, List.countP_congr hbits, ← List.countP_map, hturned]
  exact (List.rotate_perm _ r).countP_eq _

/-! ## Runs -/

/-- If a list starts with all of its members that have a property, no others follow. -/
theorem getElem_eq_of_countP {p : Nat → Bool} {l : List Nat}
    (h : l.countP p ≤ (l.takeWhile p).length) (hi : i < l.length) :
    p l[i] = decide (i < (l.takeWhile p).length) := by
  induction l generalizing i with
  | nil => cases hi
  | cons a l ih =>
    cases ha : p a with
    | false =>
      have hnone : ∀ b ∈ a :: l, ¬p b := by
        rw [List.takeWhile_cons_of_neg (by simp [ha])] at h
        exact List.countP_eq_zero.mp (Nat.le_zero.mp h)
      simpa [List.takeWhile_cons_of_neg, ha] using hnone _ (List.getElem_mem hi)
    | true =>
      rw [List.takeWhile_cons_of_pos ha, List.countP_cons_of_pos ha] at h
      rw [List.takeWhile_cons_of_pos ha]
      cases i with
      | zero => simpa using ha
      | succ i =>
        have htail := ih (Nat.le_of_succ_le_succ h) (Nat.lt_of_succ_lt_succ hi)
        simpa using htail

theorem testBit_of_run (h : trailingOnes width n = popCount width n) (hi : i < width) :
    n.testBit i = decide (i < popCount width n) := by
  have hget := getElem_eq_of_countP (p := n.testBit) (l := List.range width) (i := i)
    (Nat.le_of_eq h.symm) (by simpa using hi)
  rw [List.getElem_range] at hget
  rw [hget, ← h]
  rfl

/-- An element with a rotated run of ones is that run, turned back. -/
theorem exists_of_isRotatedRun (hn : n < Word.modulus size) (h : isRotatedRun size n) :
    ∃ ones < size, 0 < ones ∧ ∃ turn < size,
      ∀ i < size, n.testBit i = decide ((i + turn) % size < ones) := by
  simp only [isRotatedRun, Bool.and_eq_true, bne_iff_ne, List.any_eq_true, List.mem_range,
    beq_iff_eq] at h
  obtain ⟨⟨hsome, hnotAll⟩, r, hr, hrun⟩ := h
  have hle : popCount size n ≤ size := by
    simpa [popCount] using List.countP_le_length (l := List.range size) (p := n.testBit)
  rw [← popCount_rotateRight hn hr] at hrun
  refine ⟨popCount size n, by omega, by omega, (size - r) % size, Nat.mod_lt _ (by omega),
    fun i hi => ?_⟩
  rw [Nat.add_mod_mod]
  have hback : ((i + (size - r)) % size + r) % size = i := by
    rw [Nat.mod_add_mod, Nat.add_assoc, Nat.sub_add_cancel (Nat.le_of_lt hr), Nat.add_mod_right,
      Nat.mod_eq_of_lt hi]
  have hturned : (i + (size - r)) % size < size := Nat.mod_lt _ (Nat.zero_lt_of_lt hi)
  calc n.testBit i
      = n.testBit (((i + (size - r)) % size + r) % size) := by rw [hback]
    _ = (rotateRight size n r).testBit ((i + (size - r)) % size) :=
      (testBit_rotateRight hn hr hturned).symm
    _ = decide ((i + (size - r)) % size < popCount size n) := by
      rw [testBit_of_run hrun hturned, popCount_rotateRight hn hr]

/-! ## Repetition -/

theorem testBit_of_repeats (h : repeats size width n) (hdvd : size ∣ width) (hi : i < width) :
    n.testBit i = (n % Word.modulus size).testBit (i % size) := by
  have hpos : 0 < size := Nat.pos_of_dvd_of_pos hdvd (Nat.zero_lt_of_lt hi)
  have hcopy : i / size < width / size := Nat.div_lt_div_of_lt_of_dvd hdvd hi
  simp only [repeats, List.all_eq_true, List.mem_range, beq_iff_eq] at h
  rw [← h _ hcopy, testBit_mod_modulus, decide_eq_true (Nat.mod_lt i hpos), Bool.true_and,
    Nat.testBit_shiftRight, Nat.mul_comm, Nat.div_add_mod]

/-- How wide a register is that holds `bits` bits. -/
def registerWidth (bits : Nat) : Nat := if bits ≤ 32 then 32 else 64

theorem dvd_registerWidth {bits : Nat} (hsize : size ∈ [2, 4, 8, 16, 32, 64])
    (hle : size ≤ registerWidth bits) : size ∣ registerWidth bits := by
  rw [registerWidth] at hle ⊢
  simp only [List.mem_cons, List.not_mem_nil, or_false] at hsize
  rcases hsize with rfl | rfl | rfl | rfl | rfl | rfl <;> split_ifs at hle ⊢ <;> omega

/-- **A constant that legalization accepts is a bitmask of the width of the register.** -/
theorem isBitmask_of_isLogicalImmediate {value : Int} {bits : Nat}
    (h : isLogicalImmediate value bits) :
    IsBitmask (registerWidth bits) (Word.low (registerWidth bits) value) := by
  have hwidth : (if 32 < bits then 64 else 32) = registerWidth bits := by
    rw [registerWidth]
    split_ifs <;> omega
  simp only [isLogicalImmediate, hwidth, List.any_eq_true, List.mem_filter, decide_eq_true_eq,
    Bool.and_eq_true] at h
  obtain ⟨size, ⟨hsize, hle⟩, hrepeats, hrun⟩ := h
  have hdvd : size ∣ registerWidth bits := dvd_registerWidth hsize hle
  have hpos : 0 < Word.modulus size := Nat.pow_pos (by decide)
  obtain ⟨ones, hfew, hones, turn, hturn, helement⟩ :=
    exists_of_isRotatedRun (Nat.mod_lt _ hpos) hrun
  refine ⟨size, hsize, hle, ones, hfew, hones, turn, hturn, fun k hk => ?_⟩
  have hbelow : k % size < size := Nat.mod_lt k (Nat.zero_lt_of_lt hfew)
  rw [testBit_of_repeats hrepeats hdvd hk, helement _ hbelow, Nat.mod_add_mod]

theorem isBitmask_lowMask (hn : 0 < n) (hlt : n < 32) :
    IsBitmask 32 (Word.low 32 (Word.modulus n - 1 : Nat)) := by
  have hle : Word.modulus n - 1 < Word.modulus 32 :=
    Nat.lt_of_le_of_lt (Nat.sub_le _ _) (Nat.pow_lt_pow_right (by decide) hlt)
  have hlow : Word.low 32 (Word.modulus n - 1 : Nat) = Word.modulus n - 1 := by
    rw [Word.low, ← Int.natCast_emod, Int.toNat_natCast, Nat.mod_eq_of_lt hle]
  refine ⟨32, by decide, Nat.le_refl _, n, hlt, hn, 0, by decide, fun k hk => ?_⟩
  rw [hlow, Nat.add_zero, Nat.mod_eq_of_lt hk]
  exact Nat.testBit_two_pow_sub_one n k

/-! ## Every bitmask is accepted -/

/-- Rotated runs of ones repeat in every bitmask. -/
theorem testBit_run_add (turn ones i k : Nat) :
    decide ((k * size + i + turn) % size < ones) = decide ((i + turn) % size < ones) := by
  rw [Nat.add_assoc, Nat.mul_comm, Nat.mul_add_mod]

theorem popCount_of_run {ones : Nat} (hones : ones ≤ width)
    (h : ∀ i < width, n.testBit i = decide (i < ones)) : popCount width n = ones := by
  have hbits : ∀ i ∈ List.range width, n.testBit i ↔ decide (i < ones) := fun i hi => by
    rw [h i (List.mem_range.mp hi)]
  obtain ⟨rest, rfl⟩ := Nat.exists_eq_add_of_le hones
  rw [popCount, List.countP_congr hbits, List.range_add, List.countP_append, List.countP_map,
    List.countP_eq_length.mpr fun i hi => decide_eq_true (List.mem_range.mp hi),
    List.countP_eq_zero.mpr fun i _ => by simp, List.length_range, Nat.add_zero]

theorem trailingOnes_of_run {ones : Nat} (hones : ones ≤ width)
    (h : ∀ i < width, n.testBit i = decide (i < ones)) : trailingOnes width n = ones := by
  obtain ⟨rest, rfl⟩ := Nat.exists_eq_add_of_le hones
  have hrun : ∀ i ∈ List.range ones, n.testBit i := fun i hi => by
    have hlt := List.mem_range.mp hi
    rw [h i (Nat.lt_add_right rest hlt), decide_eq_true hlt]
  rw [trailingOnes, List.range_add, List.takeWhile_append_of_pos hrun, List.length_append,
    List.length_range]
  cases rest with
  | zero => rfl
  | succ rest =>
    -- the run ends behind its last one
    have hend : ¬n.testBit (ones + 0) := by simp [h ones (by omega)]
    rw [List.range_succ_eq_map, List.map_cons, List.takeWhile_cons_of_neg hend]
    rfl

theorem isRotatedRun_of_run {ones turn : Nat} (hn : n < Word.modulus size) (hones : 0 < ones)
    (hfew : ones < size) (hturn : turn < size)
    (h : ∀ i < size, n.testBit i = decide ((i + turn) % size < ones)) : isRotatedRun size n := by
  have hback : (size - turn) % size < size := Nat.mod_lt _ (by omega)
  have hrun : ∀ i < size,
      (rotateRight size n ((size - turn) % size)).testBit i = decide (i < ones) := by
    intro i hi
    rw [testBit_rotateRight hn hback hi, h _ (Nat.mod_lt _ (by omega)), Nat.mod_add_mod,
      Nat.add_right_comm, Nat.add_mod_mod, Nat.add_assoc, Nat.add_sub_cancel' (Nat.le_of_lt hturn),
      Nat.add_mod_right, Nat.mod_eq_of_lt hi]
  have hcount : popCount size n = ones := by
    rw [← popCount_rotateRight hn hback]
    exact popCount_of_run (Nat.le_of_lt hfew) hrun
  simp only [isRotatedRun, hcount, Bool.and_eq_true, bne_iff_ne, List.any_eq_true, List.mem_range,
    beq_iff_eq]
  exact ⟨⟨Nat.ne_of_gt hones, Nat.ne_of_lt hfew⟩, _, hback,
    trailingOnes_of_run (Nat.le_of_lt hfew) hrun⟩

theorem repeats_of_testBit {ones turn : Nat}
    (h : ∀ k < width, n.testBit k = decide ((k + turn) % size < ones)) : repeats size width n := by
  simp only [repeats, List.all_eq_true, List.mem_range, beq_iff_eq]
  intro k hk
  refine Nat.eq_of_testBit_eq fun i => ?_
  rw [testBit_mod_modulus, testBit_mod_modulus, Nat.testBit_shiftRight]
  by_cases hi : i < size
  · have hlt : k * size + i < width := calc
      k * size + i < (k + 1) * size := by rw [Nat.succ_mul]; omega
      _ ≤ width / size * size := Nat.mul_le_mul_right size hk
      _ ≤ width := Nat.div_mul_le_self width size
    rw [h _ hlt, h i (by omega), testBit_run_add]
  · rw [decide_eq_false hi, Bool.false_and, Bool.false_and]

theorem low_lt_modulus (bits : Nat) (i : Int) : Word.low bits i < Word.modulus bits := by
  have hpos : (0 : Int) < (Word.modulus bits : Nat) := by
    exact_mod_cast Nat.pow_pos (n := bits) (by decide : 0 < 2)
  rw [Word.low, Int.toNat_lt (Int.emod_nonneg i (by omega))]
  exact Int.emod_lt_of_pos i hpos

theorem isLogicalImmediate_of_isBitmask {value : Int} {bits : Nat}
    (h : IsBitmask (registerWidth bits) (Word.low (registerWidth bits) value)) :
    isLogicalImmediate value bits := by
  obtain ⟨size, hsize, hle, ones, hfew, hones, turn, hturn, hword⟩ := h
  have hwidth : (if 32 < bits then 64 else 32) = registerWidth bits := by
    rw [registerWidth]
    split_ifs <;> omega
  simp only [isLogicalImmediate, hwidth, List.any_eq_true, List.mem_filter, decide_eq_true_eq,
    Bool.and_eq_true]
  refine ⟨size, ⟨hsize, hle⟩, repeats_of_testBit hword, ?_⟩
  refine isRotatedRun_of_run (Nat.mod_lt _ (Nat.pow_pos (by decide))) hones hfew hturn fun i hi => ?_
  rw [testBit_mod_modulus, decide_eq_true hi, Bool.true_and, hword i (Nat.lt_of_lt_of_le hi hle)]

/-! ## Words that repeat an element -/

/-- `ones` ones at the low end of a word, which is then turned right. -/
def rotatedRun (size ones turn : Nat) : BitVec size :=
  ((BitVec.allOnes ones).setWidth size).rotateRight turn

theorem getLsbD_rotatedRun {turn : Nat} (ones : Nat) (hturn : turn < size) (hi : i < size) :
    (rotatedRun size ones turn).getLsbD i = decide ((i + turn) % size < ones) := by
  rw [rotatedRun, BitVec.getLsbD_rotateRight, Nat.mod_eq_of_lt hturn]
  by_cases hwrap : i < size - turn
  · rw [decide_eq_true hwrap, cond_true, BitVec.getLsbD_setWidth, BitVec.getLsbD_allOnes,
      decide_eq_true (by omega), Bool.true_and, Nat.add_comm turn i,
      Nat.mod_eq_of_lt (by omega)]
  · rw [decide_eq_false hwrap, cond_false, BitVec.getLsbD_setWidth, BitVec.getLsbD_allOnes,
      decide_eq_true hi, decide_eq_true (by omega), Bool.true_and, Bool.true_and,
      Nat.mod_eq_sub_mod (by omega), Nat.mod_eq_of_lt (by omega)]
    congr 2
    omega

/-- A word that repeats a rotated run is told by its bits. -/
theorem eq_replicate_iff {ones turn word : Nat} (hword : word < Word.modulus width)
    (hdvd : size ∣ width) (hturn : turn < size) :
    word = ((rotatedRun size ones turn).replicate (width / size)).toNat ↔
      ∀ k < width, word.testBit k = decide ((k + turn) % size < ones) := by
  have hlength : size * (width / size) = width := Nat.mul_div_cancel' hdvd
  have hbits : ∀ k < width, ((rotatedRun size ones turn).replicate (width / size)).toNat.testBit k =
      decide ((k + turn) % size < ones) := by
    intro k hk
    have hlt : k % size < size := Nat.mod_lt k (by omega)
    rw [BitVec.testBit_toNat, BitVec.getLsbD_replicate, hlength, decide_eq_true hk, Bool.true_and,
      getLsbD_rotatedRun ones hturn hlt, Nat.mod_add_mod]
  refine ⟨fun h k hk => h ▸ hbits k hk, fun h => Nat.eq_of_testBit_eq fun k => ?_⟩
  by_cases hk : k < width
  · rw [h k hk, hbits k hk]
  · rw [testBit_of_lt_modulus hword (Nat.le_of_not_lt hk), BitVec.testBit_toNat,
      BitVec.getLsbD_of_ge _ _ (by omega)]

/-- **Exactly the constants are accepted whose low bits repeat an element with a rotated run of
ones**: 64 of them if the operands have more than 32 bits, and 32 otherwise. -/
theorem isLogicalImmediate_iff (value : Int) (bits : Nat) :
    isLogicalImmediate value bits ↔ ∃ size ∈ [2, 4, 8, 16, 32, 64], size ≤ registerWidth bits ∧
      ∃ ones turn, (1 ≤ ones ∧ ones < size) ∧ turn < size ∧
        Word.low (registerWidth bits) value =
          ((rotatedRun size ones turn).replicate (registerWidth bits / size)).toNat := by
  have hlow := low_lt_modulus (registerWidth bits) value
  constructor
  · intro h
    obtain ⟨size, hsize, hle, ones, hfew, hones, turn, hturn, hword⟩ :=
      isBitmask_of_isLogicalImmediate h
    exact ⟨size, hsize, hle, ones, turn, ⟨hones, hfew⟩, hturn,
      (eq_replicate_iff hlow (dvd_registerWidth hsize hle) hturn).mpr hword⟩
  · rintro ⟨size, hsize, hle, ones, turn, ⟨hones, hfew⟩, hturn, hword⟩
    exact isLogicalImmediate_of_isBitmask ⟨size, hsize, hle, ones, hfew, hones, turn, hturn,
      (eq_replicate_iff hlow (dvd_registerWidth hsize hle) hturn).mp hword⟩

end Retarget.Target.AArch64
