import Mathlib.Data.List.Basic
import Retarget.NativeCode
import Retarget.Proofs.Shape.NativeCode

/-!
# The walk of selection

Selection goes through the instructions in the order of the blocks and puts what an instruction
becomes in its place.  So when it comes to an instruction, everything in front of it is selected and
everything from it on is as it was (`reached_eq`), and the selected code is what the instructions
become, one after another (`selectInstructions_eq`).
-/

namespace Retarget.Machine

open Target

variable {t : Target} {f g h : Function} {b k : Nat} {i : Instruction}

/-! ## Partly rewritten code -/

/-- Code with `new n` in place of instruction `n`, for the first `count` ones. -/
def rewritten (new : Nat → List Instruction) (count : Nat) (code : List Instruction) :
    List Instruction :=
  (List.range count).flatMap new ++ code.drop count

/-- Where instruction `k` stands behind what the ones before it became. -/
def offset (new : Nat → List Instruction) (k : Nat) : Nat := ((List.range k).flatMap new).length

theorem rewritten_zero (new : Nat → List Instruction) (code : List Instruction) :
    rewritten new 0 code = code := rfl

theorem rewritten_length (new : Nat → List Instruction) (code : List Instruction) :
    rewritten new code.length code = (List.range code.length).flatMap new := by
  rw [rewritten, List.drop_length, List.append_nil]

theorem offset_succ (new : Nat → List Instruction) (k : Nat) :
    offset new (k + 1) = offset new k + (new k).length := by
  rw [offset, offset, List.range_succ, List.flatMap_append, List.length_append,
    List.flatMap_singleton]

theorem getElem?_rewritten (new : Nat → List Instruction) (count n : Nat) (code : List Instruction) :
    (rewritten new count code)[offset new count + n]? = code[count + n]? := by
  rw [rewritten, offset, List.getElem?_append_right (Nat.le_add_right _ _),
    Nat.add_sub_cancel_left, List.getElem?_drop]

theorem rewritten_succ (new : Nat → List Instruction) (k : Nat) (code : List Instruction) :
    (rewritten new k code).take (offset new k) ++ new k ++
      (rewritten new k code).drop (offset new k + 1) = rewritten new (k + 1) code := by
  rw [rewritten, offset, List.take_left, List.drop_append, List.drop_eq_nil_of_le (by omega),
    List.nil_append, Nat.add_sub_cancel_left, List.drop_drop, rewritten, List.range_succ,
    List.flatMap_append, List.flatMap_singleton]

def Block.rewrite (block : Block) (new : Nat → List Instruction) (count : Nat) : Block :=
  { block with instructions := rewritten new count block.instructions }

/-- How many instructions of block `b'`, which has `length`, come before position `(b, k)`. -/
def passed (b k b' length : Nat) : Nat := if b' < b then length else if b' = b then k else 0

namespace Function

/-- The function with `new b k` in place of instruction `k` of block `b`, up to position `(b, k)`. -/
def rewriteUpTo (f : Function) (new : Nat → Nat → List Instruction) (b k : Nat) : Function :=
  { f with blocks := f.blocks.mapIdx fun b' block =>
      block.rewrite (new b') (passed b k b' block.instructions.length) }

/-- The function with `new b k` in place of instruction `k` of block `b`, everywhere. -/
def rewrite (f : Function) (new : Nat → Nat → List Instruction) : Function :=
  { f with blocks := f.blocks.mapIdx fun b block =>
      { block with instructions := (List.range block.instructions.length).flatMap (new b) } }

section

variable (f) (new : Nat → Nat → List Instruction)

theorem blocks_rewriteUpTo (b k b' : Nat) : (f.rewriteUpTo new b k).blocks[b']? =
    f.blocks[b']?.map fun block =>
      block.rewrite (new b') (passed b k b' block.instructions.length) :=
  List.getElem?_mapIdx

theorem rewriteUpTo_zero : f.rewriteUpTo new 0 0 = f := by
  have hblocks : (f.rewriteUpTo new 0 0).blocks = f.blocks := by
    refine List.ext_getElem? fun b' => ?_
    rw [blocks_rewriteUpTo]
    have hpassed : ∀ length, passed 0 0 b' length = 0 := by
      intro length
      rw [passed, if_neg (Nat.not_lt_zero b')]
      split <;> rfl
    simp only [hpassed]
    exact Option.map_id'
  exact congrArg (fun blocks => { f with blocks := blocks }) hblocks

theorem rewriteUpTo_blockLength (b : Nat) :
    f.rewriteUpTo new b (f.blockLength b) = f.rewriteUpTo new (b + 1) 0 := by
  have hblocks : (f.rewriteUpTo new b (f.blockLength b)).blocks =
      (f.rewriteUpTo new (b + 1) 0).blocks := by
    refine List.ext_getElem? fun b' => ?_
    rw [blocks_rewriteUpTo, blocks_rewriteUpTo]
    cases hblock : f.blocks[b']? with
    | none => rfl
    | some block =>
      have hpassed : passed b (f.blockLength b) b' block.instructions.length =
          passed (b + 1) 0 b' block.instructions.length := by
        rw [passed, passed]
        by_cases hb : b' = b
        · subst hb
          rw [if_neg (Nat.lt_irrefl b'), if_pos rfl, if_pos (Nat.lt_succ_self b'), blockLength,
            hblock]
        · grind
      rw [Option.map_some, Option.map_some, hpassed]
  exact congrArg (fun blocks => { f with blocks := blocks }) hblocks

theorem rewriteUpTo_length : f.rewriteUpTo new f.blocks.length 0 = f.rewrite new := by
  have hblocks : (f.rewriteUpTo new f.blocks.length 0).blocks = (f.rewrite new).blocks := by
    refine List.ext_getElem? fun b' => ?_
    rw [blocks_rewriteUpTo, rewrite, List.getElem?_mapIdx]
    cases hblock : f.blocks[b']? with
    | none => rfl
    | some block =>
      have hpassed : passed f.blocks.length 0 b' block.instructions.length =
          block.instructions.length := if_pos (List.getElem?_eq_some_iff.mp hblock).1
      rw [Option.map_some, Option.map_some, hpassed, Block.rewrite, rewritten_length]
  exact congrArg (fun blocks => { f with blocks := blocks }) hblocks

theorem blockLength_rewriteUpTo_zero (b : Nat) :
    (f.rewriteUpTo new b 0).blockLength b = f.blockLength b := by
  rw [blockLength, blockLength, blocks_rewriteUpTo]
  cases f.blocks[b]? with
  | none => rfl
  | some block => simp [passed, Block.rewrite, rewritten_zero]

theorem instruction?_rewriteUpTo (b k n : Nat) :
    (f.rewriteUpTo new b k).instruction? b (offset (new b) k + n) = f.instruction? b (k + n) := by
  rw [instruction?, instruction?, blocks_rewriteUpTo]
  cases f.blocks[b]? with
  | none => rfl
  | some block =>
    have hpassed : passed b k b block.instructions.length = k := by simp [passed]
    rw [Option.map_some, hpassed]
    exact getElem?_rewritten (new b) k n block.instructions

theorem replaceAt_rewriteUpTo (b k : Nat) :
    (f.rewriteUpTo new b k).replaceAt b (offset (new b) k) (new b k) =
      f.rewriteUpTo new b (k + 1) := by
  have hblocks : ((f.rewriteUpTo new b k).replaceAt b (offset (new b) k) (new b k)).blocks =
      (f.rewriteUpTo new b (k + 1)).blocks := by
    refine List.ext_getElem? fun b' => ?_
    rw [replaceAt, modifyBlock, List.getElem?_modify, blocks_rewriteUpTo, blocks_rewriteUpTo]
    cases f.blocks[b']? with
    | none => rfl
    | some block =>
      by_cases hb : b = b'
      · subst hb
        simpa [passed, Block.splice, Block.rewrite] using
          rewritten_succ (new b) k block.instructions
      · have hpassed : passed b k b' block.instructions.length =
            passed b (k + 1) b' block.instructions.length := by
          rw [passed, passed, if_neg (Ne.symm hb), if_neg (Ne.symm hb)]
        simp [hb, hpassed]
  exact congrArg (fun blocks => { f with blocks := blocks }) hblocks

end

/-- What every instruction shows of itself, the code shows in which other instructions with the same
to show stand in its place. -/
theorem filterMap_rewrite {β : Type} {φ : Instruction → Option β}
    {new : Nat → Nat → List Instruction} (h : ∀ b k i, f.instruction? b k = some i →
      (new b k).filterMap φ = [i].filterMap φ) :
    (f.rewrite new).instructions.filterMap φ = f.instructions.filterMap φ := by
  have hblock : ∀ b block, f.blocks[b]? = some block → ∀ count ≤ block.instructions.length,
      ((List.range count).flatMap (new b)).filterMap φ =
        (block.instructions.take count).filterMap φ := by
    intro b block hblock count hcount
    induction count with
    | zero => rfl
    | succ count ih =>
      have hi : block.instructions[count]? = some block.instructions[count] :=
        List.getElem?_eq_getElem hcount
      have hnew := h b count _ (Option.bind_eq_some_iff.mpr ⟨block, hblock, hi⟩)
      rw [List.range_succ, List.flatMap_append, List.flatMap_singleton, List.filterMap_append,
        ih (Nat.le_of_succ_le hcount), List.take_succ_eq_append_getElem hcount,
        List.filterMap_append, hnew]
  have hblocks : (f.rewrite new).blocks.map (fun block => block.instructions.filterMap φ) =
      f.blocks.map fun block => block.instructions.filterMap φ := by
    refine List.ext_getElem? fun b => ?_
    rw [List.getElem?_map, rewrite, List.getElem?_mapIdx, List.getElem?_map]
    cases hget : f.blocks[b]? with
    | none => rfl
    | some block =>
      have heq := hblock b block hget _ (Nat.le_refl _)
      rw [List.take_length] at heq
      exact congrArg some heq
  rw [instructions, instructions, List.filterMap_flatMap, List.filterMap_flatMap,
    List.flatMap_def, List.flatMap_def, hblocks]

theorem exists_instruction?_of_mem_rewrite {new : Nat → Nat → List Instruction} {j : Instruction}
    (h : j ∈ (f.rewrite new).instructions) : ∃ b k i, f.instruction? b k = some i ∧ j ∈ new b k := by
  obtain ⟨block, hblock, hj⟩ := mem_instructions.mp h
  obtain ⟨b, hb, rfl⟩ := List.mem_mapIdx.mp hblock
  obtain ⟨k, hk, hj⟩ := List.mem_flatMap.mp hj
  rw [List.mem_range] at hk
  exact ⟨b, k, _, Option.bind_eq_some_iff.mpr
    ⟨f.blocks[b], List.getElem?_eq_getElem hb, List.getElem?_eq_getElem hk⟩, hj⟩

/-! ## The walk -/

/-- The function when selection comes to instruction `k` of block `b`, and where that instruction
stands then. -/
def reached (t : Target) (f : Function) (b : Nat) : Nat → Result (Nat × Function)
  | 0 => do
    let g ← (List.range b).foldlM (fun g b => selectFrom t b (g.blockLength b) 0 g) f
    return (0, g)
  | k + 1 => do
    let (start, g) ← reached t f b k
    t.selectAt g b start

/-- What instruction `k` of block `b` becomes when the function is selected. -/
def becomes (t : Target) (f : Function) (b k : Nat) : List Instruction :=
  match reached t f b k, reached t f b (k + 1) with
  | .ok (start, _), .ok (stop, g) =>
    (((g.blocks[b]?.map (·.instructions)).getD []).drop start).take (stop - start)
  | _, _ => []

/-- In the function, the instruction `i` at position `(b, k)` becomes `new`. -/
def Became (t : Target) (f : Function) (b k : Nat) (i : Instruction) (new : List Instruction) :
    Prop :=
  i.isSelected ∧ new = [i] ∨ ∃ op r, i.generic? = some op ∧
    t.select { function := f, block := b, index := k, instruction := i } op = .ok r ∧
    new = r.first :: r.rest

theorem selectAt_eq_ok (hi : f.instruction? b k = some i) {r : Nat × Function}
    (h : t.selectAt f b k = .ok r) :
    ∃ new, r = (k + new.length, f.replaceAt b k new) ∧ Became t f b k i new := by
  rw [selectAt, Site.at?, instructionAt_eq hi, ok_bind] at h
  change (if i.isSelected then _ else _) = _ at h
  split at h
  · next hselected =>
    cases h
    refine ⟨[i], ?_, .inl ⟨hselected, rfl⟩⟩
    rw [replaceAt_self hi]
    rfl
  · split at h
    · cases h
    · next op hop =>
      obtain ⟨r', hr', h⟩ := bind_eq_ok.mp h
      dsimp only at h
      split at h
      · cases h
        have hbecome := Site.holds_become
          { function := f, block := b, index := k, instruction := i } rfl
          (Nat.le_of_lt (lt_blockLength hi)) r'
        refine ⟨r'.first :: r'.rest, ?_, .inr ⟨op, r', hop, hr', rfl⟩⟩
        rw [hbecome.function, Site.stop, hbecome.index, ← hbecome.inserted, Nat.add_assoc,
          Nat.add_comm 1]
      · cases h

theorem selectAt_of_select {op : GenericOp} {r : Replacement} (hi : f.instruction? b k = some i)
    (hop : i.opcode = .generic op)
    (h : t.select { function := f, block := b, index := k, instruction := i } op = .ok r)
    (hfirst : r.first.isSelected) :
    t.selectAt f b k = .ok (k + (r.first :: r.rest).length, f.replaceAt b k (r.first :: r.rest)) := by
  have hselected : i.isSelected = false := by
    rw [Instruction.isSelected, hop]
    rfl
  have hgeneric : i.generic? = some op := by
    rw [Instruction.generic?, hop]
    rfl
  have hbecome := Site.holds_become { function := f, block := b, index := k, instruction := i } rfl
    (Nat.le_of_lt (lt_blockLength hi)) r
  have hfirst' : (Site.become { function := f, block := b, index := k, instruction := i } r
      ).instruction = r.first := Site.instruction_insertAll _ r.rest
  rw [selectAt, Site.at?, instructionAt_eq hi, ok_bind]
  change (if i.isSelected then _ else _) = _
  rw [hselected, if_neg Bool.false_ne_true]
  simp only [hgeneric, h, ok_bind, hfirst', hfirst, if_true]
  rw [hbecome.function, Site.stop, hbecome.index, ← hbecome.inserted, Nat.add_assoc, Nat.add_comm 1]
  rfl

theorem take_drop_replaceAt {new : List Instruction} (hk : k < f.blockLength b) :
    ((((f.replaceAt b k new).blocks[b]?.map (·.instructions)).getD []).drop k).take new.length =
      new := by
  rw [replaceAt, modifyBlock, List.getElem?_modify]
  rw [blockLength] at hk
  cases hblock : f.blocks[b]? with
  | none => simp [hblock] at hk
  | some block =>
    rw [hblock] at hk
    have htake : (block.instructions.take k).length = k := List.length_take_of_le (Nat.le_of_lt hk)
    show List.take new.length
        (List.drop k (if b = b then block.splice k 1 new else block).instructions) =
      new
    rw [if_pos rfl, Block.splice, List.append_assoc, List.drop_append, htake, Nat.sub_self,
      List.drop_zero, List.drop_eq_nil_of_le (by omega), List.nil_append, List.take_left]

theorem reached_of_selectFrom {count start : Nat} (h : reached t f b k = .ok (start, g))
    (hfrom : selectFrom t b count start g = .ok g') :
    ∃ stop, reached t f b (k + count) = .ok (stop, g') := by
  induction count generalizing k start g with
  | zero =>
    cases hfrom
    exact ⟨start, h⟩
  | succ count ih =>
    rw [selectFrom] at hfrom
    obtain ⟨⟨next, g₁⟩, hstep, hfrom⟩ := bind_eq_ok.mp hfrom
    have hnext : reached t f b (k + 1) = .ok (next, g₁) := by
      rw [reached, h, ok_bind]
      exact hstep
    rw [← Nat.succ_add_eq_add_succ]
    exact ih hnext hfrom

theorem reached_succ_eq (hi : f.instruction? b k = some i)
    (h : reached t f b k = .ok (offset (becomes t f b) k, f.rewriteUpTo (becomes t f) b k))
    {r : Nat × Function} (hnext : reached t f b (k + 1) = .ok r) :
    r = (offset (becomes t f b) (k + 1), f.rewriteUpTo (becomes t f) b (k + 1)) ∧
      Became t (f.rewriteUpTo (becomes t f) b k) b (offset (becomes t f b) k) i
        (becomes t f b k) := by
  have hstep := hnext
  rw [reached, h, ok_bind] at hstep
  have hi' := f.instruction?_rewriteUpTo (becomes t f) b k 0
  rw [Nat.add_zero, Nat.add_zero, hi] at hi'
  obtain ⟨new, rfl, hnew⟩ := selectAt_eq_ok hi' hstep
  have hbecomes : becomes t f b k = new := by
    rw [becomes, h, hnext]
    dsimp only
    rw [Nat.add_sub_cancel_left]
    exact take_drop_replaceAt (lt_blockLength hi')
  refine ⟨?_, hbecomes ▸ hnew⟩
  rw [offset_succ, ← replaceAt_rewriteUpTo, hbecomes]

/-- In a block, what is in front of the walk is selected. -/
theorem reached_eq_of_zero (hzero : ∀ r, reached t f b 0 = .ok r →
      r = (0, f.rewriteUpTo (becomes t f) b 0)) {r : Nat × Function} (hk : k ≤ f.blockLength b)
    (h : reached t f b k = .ok r) :
    r = (offset (becomes t f b) k, f.rewriteUpTo (becomes t f) b k) := by
  induction k generalizing r with
  | zero => exact hzero r h
  | succ k ih =>
    obtain ⟨i, hi⟩ := exists_instruction? (b := b) hk
    obtain ⟨r', hr', -⟩ := bind_eq_ok.mp h
    cases ih (Nat.le_of_succ_le hk) hr'
    exact (reached_succ_eq hi hr' h).1

theorem reached_zero_eq {r : Nat × Function} (h : reached t f b 0 = .ok r) :
    r = (0, f.rewriteUpTo (becomes t f) b 0) := by
  induction b generalizing r with
  | zero =>
    cases h
    rw [rewriteUpTo_zero]
  | succ b ih =>
    obtain ⟨g, hg, h⟩ := bind_eq_ok.mp h
    cases h
    rw [List.range_succ, List.foldlM_append] at hg
    obtain ⟨g₀, hg₀, hg⟩ := bind_eq_ok.mp hg
    rw [List.foldlM_cons] at hg
    obtain ⟨g₁, hfrom, hg⟩ := bind_eq_ok.mp hg
    cases hg
    have hstart : reached t f b 0 = .ok (0, g₀) := by
      rw [reached, hg₀]
      rfl
    obtain ⟨stop, hstop⟩ := reached_of_selectFrom hstart hfrom
    cases ih hstart
    rw [Nat.zero_add, blockLength_rewriteUpTo_zero] at hstop
    cases reached_eq_of_zero (fun _ => ih) (Nat.le_refl _) hstop
    rw [rewriteUpTo_blockLength]

/-- **When selection comes to an instruction, what is in front of it is selected, and the rest is as
it was.** -/
theorem reached_eq {r : Nat × Function} (hk : k ≤ f.blockLength b) (h : reached t f b k = .ok r) :
    r = (offset (becomes t f b) k, f.rewriteUpTo (becomes t f) b k) :=
  reached_eq_of_zero (fun _ => reached_zero_eq) hk h

theorem exists_reached_of_selectFrom {count start n : Nat} (h : reached t f b k = .ok (start, g))
    (hfrom : selectFrom t b count start g = .ok g') (hn : n ≤ count) :
    ∃ r, reached t f b (k + n) = .ok r := by
  induction n generalizing k start g count with
  | zero => exact ⟨_, h⟩
  | succ n ih =>
    cases count with
    | zero => cases hn
    | succ count =>
      rw [selectFrom] at hfrom
      obtain ⟨r, hstep, hfrom⟩ := bind_eq_ok.mp hfrom
      have hnext : reached t f b (k + 1) = .ok r := by
        rw [reached, h, ok_bind]
        exact hstep
      rw [← Nat.succ_add_eq_add_succ]
      exact ih hnext hfrom (Nat.le_of_succ_le_succ hn)

theorem exists_reached (h : f.selectInstructions t = .ok g) (hb : b < f.blocks.length)
    (hk : k ≤ f.blockLength b) :
    reached t f b k = .ok (offset (becomes t f b) k, f.rewriteUpTo (becomes t f) b k) := by
  obtain ⟨g₀, hg₀, -⟩ := bind_eq_ok.mp h
  obtain ⟨rest, hrest⟩ := Nat.exists_eq_add_of_le (Nat.succ_le_of_lt hb)
  rw [hrest, List.range_add, List.foldlM_append, List.range_succ, List.foldlM_append] at hg₀
  obtain ⟨g₂, hg₂, -⟩ := bind_eq_ok.mp hg₀
  obtain ⟨g₁, hg₁, hg₂⟩ := bind_eq_ok.mp hg₂
  rw [List.foldlM_cons] at hg₂
  obtain ⟨g₃, hfrom, -⟩ := bind_eq_ok.mp hg₂
  have hstart : reached t f b 0 = .ok (0, g₁) := by
    rw [reached, hg₁]
    rfl
  cases reached_zero_eq hstart
  rw [blockLength_rewriteUpTo_zero] at hfrom
  obtain ⟨r, hr⟩ := exists_reached_of_selectFrom hstart hfrom hk
  rw [Nat.zero_add] at hr
  rw [hr, reached_eq hk hr]

/-- **Selected code is what the instructions become, one after another.** -/
theorem selectInstructions_eq (h : f.selectInstructions t = .ok g) :
    g = t.fixUp (f.rewrite (becomes t f)) := by
  obtain ⟨g₀, hg₀, h⟩ := bind_eq_ok.mp h
  cases h
  have hend : reached t f f.blocks.length 0 = .ok (0, g₀) := by
    rw [reached, hg₀]
    rfl
  cases reached_eq (Nat.zero_le _) hend
  rw [rewriteUpTo_length]

theorem became (h : f.selectInstructions t = .ok g) (hi : f.instruction? b k = some i) :
    Became t (f.rewriteUpTo (becomes t f) b k) b (offset (becomes t f b) k) i
      (becomes t f b k) := by
  have hk := lt_blockLength hi
  obtain ⟨block, hblock, -⟩ := Option.bind_eq_some_iff.mp hi
  have hb := (List.getElem?_eq_some_iff.mp hblock).1
  exact (reached_succ_eq hi (exists_reached h hb (Nat.le_of_lt hk)) (exists_reached h hb hk)).2

end Function

end Retarget.Machine
