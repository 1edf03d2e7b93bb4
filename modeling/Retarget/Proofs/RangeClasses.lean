import Mathlib.Order.Bounds.Defs
import Retarget.Proofs.LiveRange

/-!
# Live ranges are exact

A live range says where its register is mentioned first and last, and the class that is asked of it
first (`LiveRange.IsExact`).  The ranges of a function are exact, there is one for each register that
is mentioned, and no two are level in the order of allocation (`Function.liveRanges_exact`).

Where ranges start and stop is `Function.liveRanges_hulls`.  Their classes follow the operands that
have been seen (`LiveRange.Classed`): a memory operand that mentions a register as its base asks for
no class.
-/

namespace Retarget.Machine

namespace Operand

/-- The operand is a register, a parameter or memory that has `id` as its base. -/
def Mentions (o : Operand) (id : RegId) : Prop :=
  o.kind = .virtualReg id ∨ o.kind = .parameter id ∨ ∃ offset, o.kind = .memory id offset

theorem unallocated?_eq_some_iff {o : Operand} {id : RegId} :
    o.unallocated? = some id ↔ o.Mentions id := by
  obtain ⟨kind, ty, regClass⟩ := o
  cases kind <;> simp [unallocated?, Mentions]

/-- The class that an operand asks for a register: the class on a memory operand is not that of its
base. -/
def classOf? (id : RegId) (o : Operand) : Option RegClass :=
  match o.kind with
  | .virtualReg reg | .parameter reg => if reg = id then o.regClass else none
  | _ => none

theorem classOf?_of_unallocated?_eq_none {o : Operand} (h : o.unallocated? = none) (id : RegId) :
    o.classOf? id = none := by
  obtain ⟨kind, ty, regClass⟩ := o
  cases kind <;> first | rfl | cases h

theorem classOf?_of_unallocated? {o : Operand} {reg : RegId} (h : o.unallocated? = some reg)
    (id : RegId) :
    o.classOf? id = if reg = id then (if o.isMemory then none else o.regClass) else none := by
  obtain ⟨kind, ty, regClass⟩ := o
  cases kind <;> first | cases h; rfl | cases h; exact (ite_self none).symm | cases h

end Operand

/-- Instruction `n` of the function mentions `id`. -/
def Function.MentionsAt (f : Function) (id : RegId) (n : Nat) : Prop :=
  ∃ i, f.instructions[n]? = some i ∧ ∃ o ∈ i.operands, o.Mentions id

theorem occursAt_iff {f : Function} {id : RegId} {n : Nat} :
    OccursAt f.instructions id n ↔ f.MentionsAt id n := by
  simp only [OccursAt, Function.MentionsAt, Instruction.ids, List.mem_filterMap,
    Operand.unallocated?_eq_some_iff]

namespace LiveRange

variable {seen : List Operand} {ranges ranges' : List LiveRange} {id reg : RegId}
  {c : Option RegClass} {n : Nat}

/-! ## Classes -/

/-- Each range has the class that the operands seen so far ask for its register first, and they ask
for none where there is no range. -/
structure Classed (seen : List Operand) (ranges : List LiveRange) : Prop where
  nodup : (ranges.map (·.reg)).Nodup
  known : ∀ r ∈ ranges, r.regClass = seen.findSome? (·.classOf? r.reg)
  unknown : ∀ id ∉ ranges.map (·.reg), seen.findSome? (·.classOf? id) = none

theorem Classed.perm (h : Classed seen ranges) (hp : ranges'.Perm ranges) :
    Classed seen ranges' where
  nodup := (hp.map _).nodup_iff.mpr h.nodup
  known r hr := h.known r (hp.mem_iff.mp hr)
  unknown id hid := h.unknown id fun hmem => hid ((hp.map _).mem_iff.mpr hmem)

theorem Classed.extend {o : Operand} (h : Classed seen ranges)
    (ho : ∀ id, o.classOf? id = if reg = id then c else none) :
    Classed (seen ++ [o]) (extend reg c n ranges) := by
  have hseen : ∀ id, (seen ++ [o]).findSome? (·.classOf? id) =
      (seen.findSome? (·.classOf? id)).or (if reg = id then c else none) := by
    intro id
    rw [List.findSome?_append, List.findSome?_singleton, ho]
  have hregs := map_reg_extend reg c n ranges
  refine ⟨?_, fun r hr => ?_, fun id hid => ?_⟩
  · rw [hregs]
    split
    · exact h.nodup
    · next hnew => exact List.nodup_append.mpr ⟨h.nodup, by simp, by simpa using hnew⟩
  · rw [hseen]
    rcases mem_extend h.nodup hr with ⟨hmem, hne⟩ | ⟨old, hold, rfl, rfl⟩ | ⟨hnew, rfl⟩
    · rw [if_neg (Ne.symm hne), Option.or_none]
      exact h.known r hmem
    · rw [if_pos rfl, ← h.known old hold]
      exact Option.orElse_eq_or
    · rw [if_pos rfl, h.unknown reg hnew, Option.none_or]
  · have hnot : id ∉ ranges.map (·.reg) ∧ reg ≠ id := by
      rw [hregs] at hid
      split at hid
      · next hmem => exact ⟨hid, fun heq => hid (heq ▸ hmem)⟩
      · rw [List.mem_append, not_or, List.mem_singleton] at hid
        exact ⟨hid.1, Ne.symm hid.2⟩
    rw [hseen, h.unknown id hnot.1, if_neg hnot.2]
    rfl

theorem Classed.visitOperand (h : Classed seen ranges) (n : Nat) (o : Operand) :
    Classed (seen ++ [o]) (visitOperand n ranges o) := by
  rw [LiveRange.visitOperand]
  split
  · next hnone =>
    have hsame : ∀ id, (seen ++ [o]).findSome? (·.classOf? id) = seen.findSome? (·.classOf? id) := by
      intro id
      rw [List.findSome?_append, List.findSome?_singleton,
        Operand.classOf?_of_unallocated?_eq_none hnone, Option.or_none]
    exact ⟨h.nodup, fun r hr => (h.known r hr).trans (hsame r.reg).symm,
      fun id hid => (hsame id).trans (h.unknown id hid)⟩
  · next hreg => exact h.extend (Operand.classOf?_of_unallocated? hreg)

theorem Classed.visitOperands (h : Classed seen ranges) (n : Nat) (os : List Operand) :
    Classed (seen ++ os) (os.foldl (LiveRange.visitOperand n) ranges) := by
  induction os generalizing seen ranges with
  | nil => simpa using h
  | cons o os ih => simpa using ih (h.visitOperand n o)

theorem Classed.visitInstructions (h : Classed seen ranges) (is : List Instruction) (n : Nat) :
    Classed (seen ++ is.flatMap (·.operands)) ((is.zipIdx n).foldl
      (fun ranges (i, index) => i.operands.foldl (LiveRange.visitOperand index) ranges) ranges) := by
  induction is generalizing seen ranges n with
  | nil => simpa using h
  | cons i is ih => simpa using ih (h.visitOperands n i.operands) (n + 1)

/-! ## Exact ranges -/

/-- What a range says of its register: the last mention, or 0 for a parameter without one; the first
mention, or the start of the function for a parameter; and the class that is asked of it first. -/
structure IsExact (f : Function) (r : LiveRange) : Prop where
  stop : IsGreatest { n | f.MentionsAt r.reg n } r.stop ∨
    (∀ n, ¬f.MentionsAt r.reg n) ∧ r.reg ∈ f.paramIds ∧ r.stop = 0
  start_of_mem : r.reg ∈ f.paramIds → r.start = 0
  start_of_not_mem : r.reg ∉ f.paramIds → IsLeast { n | f.MentionsAt r.reg n } r.start
  regClass : r.regClass = (f.instructions.flatMap (·.operands)).findSome? (·.classOf? r.reg)

/-- The first range comes first in the order of allocation. -/
def IsBefore (a b : LiveRange) : Prop :=
  a.start < b.start ∨ a.start = b.start ∧ (a.stop < b.stop ∨ a.stop = b.stop ∧ a.reg < b.reg)

theorem isBefore_of_precedes {a b : LiveRange} (h : a.precedes b) (hne : a.reg ≠ b.reg) :
    a.IsBefore b := by
  simp only [precedes, Bool.or_eq_true, Bool.and_eq_true, decide_eq_true_eq, beq_iff_eq] at h
  exact h.imp_right (And.imp_right (Or.imp_right (And.imp_right (Nat.lt_of_le_of_ne · hne))))

end LiveRange

namespace Function

open LiveRange (Classed)

theorem classed_liveRanges (f : Function) :
    Classed (f.instructions.flatMap (·.operands)) f.liveRanges := by
  have hstart : Classed [] ((f.params.map (·.id)).eraseDups.map fun id =>
      (⟨id, none, 0, 0⟩ : LiveRange)) := by
    refine ⟨?_, fun r hr => ?_, fun _ _ => rfl⟩
    · rw [List.map_map]
      exact (List.map_id _).symm ▸ nodup_eraseDups _
    · obtain ⟨id, -, rfl⟩ := List.mem_map.mp hr
      rfl
  exact (hstart.visitInstructions f.instructions 0).perm (LiveRange.foldr_insert_perm _)

theorem isExact_of_mem_liveRanges {f : Function} {r : LiveRange} (hr : r ∈ f.liveRanges) :
    r.IsExact f := by
  obtain ⟨hcovers, hparam, hstart, hstop⟩ := f.liveRanges_hulls.hull r hr
  simp only [occursAt_iff] at hcovers hstart hstop
  refine ⟨?_, hparam, fun hp => ⟨hstart hp, fun n hn => (hcovers n hn).1⟩,
    f.classed_liveRanges.known r hr⟩
  by_cases hlast : f.MentionsAt r.reg r.stop
  · exact .inl ⟨hlast, fun n hn => (hcovers n hn).2⟩
  · obtain ⟨hmem, hzero⟩ := hstop.resolve_left hlast
    refine .inr ⟨fun n hn => hlast ?_, hmem, hzero⟩
    obtain rfl : n = r.stop := by
      have := (hcovers n hn).2
      omega
    exact hn

/-- **The live ranges of a function are exact**, one for each id that is a parameter or mentioned, in
strict order. -/
theorem liveRanges_exact (f : Function) :
    (f.liveRanges.map (·.reg)).Nodup ∧
    (∀ id, id ∈ f.liveRanges.map (·.reg) ↔ id ∈ f.paramIds ∨ ∃ n, f.MentionsAt id n) ∧
    (∀ r ∈ f.liveRanges, r.IsExact f) ∧ f.liveRanges.Pairwise LiveRange.IsBefore := by
  have hregs := f.liveRanges_hulls
  refine ⟨hregs.nodup, fun id => ?_, fun r hr => isExact_of_mem_liveRanges hr, ?_⟩
  · simp only [hregs.mem_iff, occursAt_iff]
  · refine (LiveRange.foldr_insert_sorted _).imp₂ (fun _ _ => LiveRange.isBefore_of_precedes) ?_
    exact List.pairwise_map.mp hregs.nodup

end Function

end Retarget.Machine
