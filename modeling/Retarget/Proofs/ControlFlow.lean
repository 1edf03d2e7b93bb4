import Retarget.Proofs.LiveRange
import Retarget.Simplification

/-!
# Control flow

Points of a function are the numbers of its instructions.  Control goes on to the next instruction,
to the labels of a jump or a branch, or ends at a return (`Function.successors`).  An id is live at
a point if some way from there reads it before it is written (`LiveAt`).
-/

namespace Retarget.Machine

namespace Instruction

/-- The ids that the instruction reads.  The base of a memory operand is read wherever it stands. -/
def readIds (i : Instruction) : List RegId :=
  (if i.hasDef && (i.operand? 0).any (!·.isMemory) then i.operands.tail
    else i.operands).filterMap (·.unallocated?)

/-- The id that the instruction writes. -/
def writtenIds (i : Instruction) : List RegId :=
  (i.def?.toList.filter (!·.isMemory)).filterMap (·.unallocated?)

/-- The blocks that a jump or a branch names. -/
def targets (i : Instruction) : List String :=
  if i.isGeneric .jump || i.isGeneric .branch then i.operands.filterMap (·.label?) else []

/-- Whether control can go on to the next instruction. -/
def fallsThrough (i : Instruction) : Bool :=
  !(i.isGeneric .ret || i.isGeneric .jump || i.isGeneric .branch && !i.isFallThroughBranch)

theorem readIds_subset {i : Instruction} {id : RegId} (h : id ∈ i.readIds) : id ∈ i.ids := by
  rw [readIds] at h
  split at h
  · obtain ⟨o, ho, hid⟩ := List.mem_filterMap.mp h
    exact List.mem_filterMap.mpr ⟨o, List.mem_of_mem_tail ho, hid⟩
  · exact h

theorem writtenIds_subset {i : Instruction} {id : RegId} (h : id ∈ i.writtenIds) : id ∈ i.ids := by
  obtain ⟨o, ho, hid⟩ := List.mem_filterMap.mp h
  have hdef : i.def? = some o := by simpa using (List.mem_filter.mp ho).1
  rw [def?] at hdef
  split at hdef
  · exact List.mem_filterMap.mpr ⟨o, List.mem_of_mem_head? hdef, hid⟩
  · cases hdef

end Instruction

namespace Function

/-- The point where the first block of a name starts. -/
def blockStart? (f : Function) (name : String) : Option Nat :=
  (f.blockIndex? name).map fun b => ((f.blocks.take b).flatMap (·.instructions)).length

/-- The points that control can go to from a point. -/
def successors (f : Function) (n : Nat) : List Nat :=
  match f.instructions[n]? with
  | none => []
  | some i => (if i.fallsThrough then [n + 1] else []) ++ i.targets.filterMap f.blockStart?

/-- Control can get to the point from the start of the function. -/
inductive Reachable (f : Function) : Nat → Prop
  | entry : Reachable f 0
  | step {n m : Nat} (hn : Reachable f n) (hedge : m ∈ f.successors n) : Reachable f m

/-- Some way from the point reads the id before it is written. -/
inductive LiveAt (f : Function) (id : RegId) : Nat → Prop
  | read {n : Nat} {i : Instruction} (hi : f.instructions[n]? = some i) (hread : id ∈ i.readIds) :
      LiveAt f id n
  | pass {n m : Nat} {i : Instruction} (hi : f.instructions[n]? = some i)
      (hwrite : id ∉ i.writtenIds) (hedge : m ∈ f.successors n) (hlive : LiveAt f id m) :
      LiveAt f id n

theorem exists_of_mem_successors {f : Function} {n m : Nat} (h : m ∈ f.successors n) :
    ∃ i, f.instructions[n]? = some i := by
  rw [successors] at h
  split at h
  · simp at h
  · next i hi => exact ⟨i, hi⟩

end Function

end Retarget.Machine
