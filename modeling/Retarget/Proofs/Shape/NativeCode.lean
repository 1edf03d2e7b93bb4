import Mathlib.Data.List.InsertIdx
import Retarget.NativeCode
import Retarget.Proofs.Shape.Allocation
import Retarget.Proofs.Shape.Selection

/-!
# Native code and frame code are final

A step of selection puts final instructions in the place of an allocated one (`yields_selectAt`), so
a walk over a block leaves final ones behind it (`yields_selectFrom`).  The code of the frame is
selected on the spot, and its slots are in the frame (`yields_insertFrameCode`).
-/

namespace Retarget

open Machine

namespace Machine

theorem Block.splice_splice (block : Block) {k : Nat} (hk : k ≤ block.instructions.length)
    (count : Nat) (new more : List Instruction) :
    (block.splice k count new).splice (k + new.length) 0 more =
      block.splice k count (new ++ more) := by
  have htake : (block.instructions.take k).length = k := List.length_take_of_le hk
  rw [splice, splice, splice]
  congr 1
  rw [List.take_append_of_le_length (by simp [htake]), List.take_of_length_le (by simp [htake])]
  simp only [List.append_assoc, Nat.add_zero]
  congr 2
  rw [← List.append_assoc, List.drop_append, List.drop_eq_nil_of_le (by simp [htake])]
  simp [htake]

theorem Block.drop_insertIdx (is : List Instruction) (k : Nat) (i : Instruction) :
    (is.insertIdx k i).drop (k + 1) = is.drop k := by
  refine List.ext_getElem? fun n => ?_
  rw [List.getElem?_drop, List.getElem?_drop, List.getElem?_insertIdx_of_gt (by omega)]
  grind

theorem Block.splice_insertAt {block block' : Block} {k : Nat} {i : Instruction}
    (h : block.insertAt k i = .ok block') (new : List Instruction) :
    block'.instructions[k]? = some i ∧ block'.splice k 1 new = block.splice k 0 new := by
  rw [insertAt] at h
  split at h
  · next hk =>
    cases h
    refine ⟨?_, ?_⟩
    · rw [List.getElem?_insertIdx_self, if_pos hk]
    · rw [splice, splice, List.take_insertIdx_eq_take_of_le _ _ _ _ (Nat.le_refl k),
        drop_insertIdx]
      rfl
  · cases h

namespace Function

variable {f : Function} {b k : Nat}

theorem modifyBlock_congr {g h : Block → Block}
    (heq : ∀ block, f.blocks[b]? = some block → g block = h block) :
    f.modifyBlock b g = f.modifyBlock b h := by
  rw [modifyBlock, modifyBlock]
  congr 1
  refine List.ext_getElem? fun n => ?_
  rw [List.getElem?_modify, List.getElem?_modify]
  by_cases hn : b = n
  · subst hn
    cases hblock : f.blocks[b]? with
    | none => rfl
    | some block => simp [heq block hblock]
  · simp [hn]

theorem le_of_le_blockLength (h : k ≤ f.blockLength b) {block : Block}
    (hblock : f.blocks[b]? = some block) : k ≤ block.instructions.length := by
  rwa [blockLength, hblock] at h

theorem replaceAt_splice (hk : k ≤ f.blockLength b) (new more : List Instruction) :
    (f.replaceAt b k new).modifyBlock b (fun block => block.splice (k + new.length) 0 more) =
      f.replaceAt b k (new ++ more) := by
  have hmodify : (f.replaceAt b k new).modifyBlock b
      (fun block => block.splice (k + new.length) 0 more) =
      f.modifyBlock b fun block => (block.splice k 1 new).splice (k + new.length) 0 more := by
    rw [replaceAt, modifyBlock, modifyBlock, modifyBlock]
    congr 1
    exact List.modify_modify_eq _ _ b f.blocks
  rw [hmodify]
  exact modifyBlock_congr fun block hblock =>
    block.splice_splice (le_of_le_blockLength hk hblock) 1 new more

theorem blockLength_replaceAt (hk : k < f.blockLength b) (new : List Instruction) :
    (f.replaceAt b k new).blockLength b + 1 = f.blockLength b + new.length := by
  have hblock : (f.replaceAt b k new).blocks[b]? =
      f.blocks[b]?.map fun block => block.splice k 1 new := List.getElem?_modify_eq ..
  rw [blockLength, hblock]
  rw [blockLength] at hk ⊢
  cases hget : f.blocks[b]? with
  | none => simp [hget] at hk
  | some block =>
    rw [hget] at hk
    dsimp only at hk
    simp only [Option.map_some, Block.splice, List.length_append, List.length_take,
      List.length_drop]
    omega

theorem instruction?_replaceAt {b' k' : Nat} {i : Instruction} {new : List Instruction}
    (h : (f.replaceAt b k new).instruction? b' k' = some i) (hk : k ≤ f.blockLength b)
    (hbefore : b' ≠ b ∨ k' < k + new.length) :
    i ∈ new ∨ (b' ≠ b ∨ k' < k) ∧ f.instruction? b' k' = some i := by
  obtain ⟨block', hblock', hi⟩ := Option.bind_eq_some_iff.mp h
  rw [replaceAt, modifyBlock, List.getElem?_modify] at hblock'
  obtain ⟨block, hblock, rfl⟩ := Option.map_eq_some_iff.mp hblock'
  by_cases hb : b = b'
  · subst hb
    rw [if_pos rfl, Block.splice] at hi
    have htake := List.length_take_of_le (le_of_le_blockLength hk hblock)
    rw [List.append_assoc] at hi
    by_cases hlt : k' < k
    · rw [List.getElem?_append_left (by rwa [htake]), List.getElem?_take_of_lt hlt] at hi
      exact .inr ⟨.inr hlt, Option.bind_eq_some_iff.mpr ⟨block, hblock, hi⟩⟩
    · have hnew := hbefore.resolve_left fun hne => hne rfl
      rw [List.getElem?_append_right (by omega), htake,
        List.getElem?_append_left (by omega)] at hi
      exact .inl (List.mem_of_getElem? hi)
  · rw [if_neg hb] at hi
    exact .inr ⟨.inl (Ne.symm hb), Option.bind_eq_some_iff.mpr ⟨block, hblock, hi⟩⟩

theorem exists_instruction? (hk : k < f.blockLength b) : ∃ i, f.instruction? b k = some i := by
  rw [blockLength] at hk
  cases hblock : f.blocks[b]? with
  | none => simp [hblock] at hk
  | some block =>
    rw [hblock] at hk
    exact ⟨block.instructions[k], by simp [instruction?, hblock, List.getElem?_eq_getElem hk]⟩

theorem exists_position {i : Instruction} (h : i ∈ f.instructions) :
    ∃ b k, b < f.blocks.length ∧ f.instruction? b k = some i := by
  obtain ⟨block, hblock, hi⟩ := mem_instructions.mp h
  obtain ⟨b, hb⟩ := List.mem_iff_getElem?.mp hblock
  obtain ⟨k, hk⟩ := List.mem_iff_getElem?.mp hi
  exact ⟨b, k, (List.getElem?_eq_some_iff.mp hb).1, by simp [instruction?, hb, hk]⟩

theorem replaceAt_self {i : Instruction} (h : f.instruction? b k = some i) :
    f.replaceAt b k [i] = f := by
  obtain ⟨block, hblock, hi⟩ := Option.bind_eq_some_iff.mp h
  obtain ⟨hk, hget⟩ := List.getElem?_eq_some_iff.mp hi
  have hsame : f.replaceAt b k [i] = f.modifyBlock b id := by
    refine modifyBlock_congr fun block' hblock' => ?_
    cases hblock.symm.trans hblock'
    rw [Block.splice, List.append_assoc, ← hget, List.singleton_append,
      ← List.drop_eq_getElem_cons hk, List.take_append_drop]
    rfl
  rw [hsame, modifyBlock, List.modify_id]

end Function

end Machine

namespace Target.Site

open Target

/-- The site of a replacement that is written out so far. -/
structure Holds (f : Function) (b k : Nat) (new : List Instruction) (s : Site) : Prop where
  function : s.function = f.replaceAt b k new
  block : s.block = b
  index : s.index = k
  inserted : s.inserted + 1 = new.length

variable {f : Function} {b k : Nat} {new : List Instruction} {s : Site}

theorem Holds.insertAfter (h : Holds f b k new s) (hk : k ≤ f.blockLength b) (i : Instruction) :
    Holds f b k (new ++ [i]) (s.insertAfter i) := by
  refine ⟨?_, h.block, h.index, ?_⟩
  · have hstop : s.stop = k + new.length := by
      rw [stop, h.index, ← h.inserted]
      omega
    show s.function.modifyBlock s.block _ = _
    rw [h.function, h.block, hstop]
    exact Machine.Function.replaceAt_splice hk new [i]
  · show s.inserted + 1 + 1 = _
    rw [h.inserted]
    simp

theorem Holds.insertAll (h : Holds f b k new s) (hk : k ≤ f.blockLength b)
    (rest : List Instruction) : Holds f b k (new ++ rest) (rest.foldl Site.insertAfter s) := by
  induction rest generalizing s new with
  | nil => simpa using h
  | cons i rest ih => simpa using ih (h.insertAfter hk i)

theorem holds_become (s : Site) (hinserted : s.inserted = 0)
    (hindex : s.index ≤ s.function.blockLength s.block) (r : Replacement) :
    Holds s.function s.block s.index (r.first :: r.rest) (s.become r) := by
  have hfirst : Holds s.function s.block s.index [r.first] (s.setInstruction r.first) :=
    ⟨rfl, rfl, rfl, by simp [setInstruction, hinserted]⟩
  exact hfirst.insertAll hindex r.rest

theorem instruction_insertAll (s : Site) (rest : List Instruction) :
    (rest.foldl Site.insertAfter s).instruction = s.instruction := by
  induction rest generalizing s with
  | nil => rfl
  | cons i rest ih => exact ih (s.insertAfter i)

end Target.Site

namespace Target

variable {t : Target} {f : Function} {b k : Nat} {i : Instruction}

theorem lt_blockLength (h : f.instruction? b k = some i) : k < f.blockLength b := by
  obtain ⟨block, hblock, hi⟩ := Option.bind_eq_some_iff.mp h
  rw [Function.blockLength, hblock]
  exact (List.getElem?_eq_some_iff.mp hi).1

theorem yields_selectAt (ht : Selects t) (h : f.instruction? b k = some i) (hi : i.Allocated t) :
    Yields (fun r => ∃ new, r = (k + new.length, f.replaceAt b k new) ∧ ∀ j ∈ new, j.Final t)
      (t.selectAt f b k) := by
  rw [selectAt, Site.at?, Function.instructionAt_eq h]
  show Yields _ (if i.isSelected then _ else _)
  split
  · next hselected =>
    cases hcode : i.opcode with
    | native n =>
      refine .pure ⟨[i], ?_, ?_⟩
      · rw [Function.replaceAt_self h]
        rfl
      · simpa using (Instruction.allocated_iff_final hcode).mp hi
    | generic op => simp [Instruction.isSelected, hcode, Opcode.isSelected] at hselected
  · next hselected =>
    cases hcode : i.opcode with
    | native n =>
      have hfinal := (Instruction.allocated_iff_final hcode).mp hi
      exact absurd hfinal.fits.1 hselected
    | generic op =>
      have hop : i.generic? = some op := by
        rw [Instruction.generic?, hcode]
        rfl
      rw [hop]
      refine (ht { function := f, block := b, index := k, instruction := i } op hcode hi).bind
        fun r hr => ?_
      have hbecome := Site.holds_become { function := f, block := b, index := k, instruction := i }
        rfl (Nat.le_of_lt (lt_blockLength h)) r
      have hfirst : (Site.become { function := f, block := b, index := k, instruction := i } r
          ).instruction = r.first := Site.instruction_insertAll _ r.rest
      dsimp only
      rw [hfirst, if_pos hr.first.fits.1]
      refine .pure ⟨r.first :: r.rest, ?_, ?_⟩
      · rw [hbecome.function, Site.stop, hbecome.index, ← hbecome.inserted, Nat.add_assoc,
          Nat.add_comm 1]
      · simpa using ⟨hr.first, hr.rest⟩

end Target

namespace Machine.Function

open Target

variable {t : Target} {f : Function}

/-! ## Walks -/

/-- Selection has reached position `k` of block `b` of a function with `n` blocks. -/
structure SelectedTo (t : Target) (n b k : Nat) (f : Function) : Prop where
  length_eq : f.blocks.length = n
  all : f.All (·.Allocated t)
  before : ∀ b' k' i, f.instruction? b' k' = some i → b' < b ∨ b' = b ∧ k' < k → i.Final t

theorem SelectedTo.replaceAt {n b k : Nat} {new : List Instruction} (h : f.SelectedTo t n b k)
    (hk : k ≤ f.blockLength b) (hnew : ∀ i ∈ new, i.Final t) :
    (f.replaceAt b k new).SelectedTo t n b (k + new.length) := by
  refine ⟨?_, h.all.replaceAt fun i hi => (hnew i hi).allocated, fun b' k' i hi hbefore => ?_⟩
  · rw [← h.length_eq]
    exact List.length_modify ..
  · rcases instruction?_replaceAt hi hk (by omega) with hmem | ⟨hold, hi⟩
    · exact hnew i hmem
    · exact h.before b' k' i hi (by omega)

theorem yields_selectFrom (ht : Selects t) {n b k count : Nat} (h : f.SelectedTo t n b k)
    (hcount : f.blockLength b = k + count) :
    Yields (SelectedTo t n (b + 1) 0) (selectFrom t b count k f) := by
  induction count generalizing f k with
  | zero =>
    refine .ok ⟨h.length_eq, h.all, fun b' k' i hi hbefore => h.before b' k' i hi ?_⟩
    by_cases hb : b' = b
    · subst hb
      have := lt_blockLength hi
      omega
    · omega
  | succ count ih =>
    rw [selectFrom]
    have hk : k < f.blockLength b := by omega
    obtain ⟨i, hi⟩ := exists_instruction? hk
    refine (yields_selectAt ht hi (h.all i (mem_of_instruction? hi))).bind ?_
    rintro _ ⟨new, rfl, hnew⟩
    refine ih (h.replaceAt (Nat.le_of_lt hk) hnew) ?_
    have := blockLength_replaceAt hk new
    omega

/-- **Selection leaves final instructions only.** -/
theorem yields_selectInstructions (ht : Selects t)
    (hfix : ∀ f : Function, f.All (·.Final t) → (t.fixUp f).All (·.Final t))
    (h : f.All (·.Allocated t)) :
    Yields (fun g => g.All (·.Final t)) (f.selectInstructions t) := by
  rw [selectInstructions]
  refine Yields.bind (P := SelectedTo t f.blocks.length f.blocks.length 0) ?_ fun g hg => ?_
  · refine Yields.foldlM_range (R := fun b g => SelectedTo t f.blocks.length b 0 g) ?_
      fun b hb g hg => yields_selectFrom ht hg (by omega)
    exact ⟨rfl, h, fun b k i hi hbefore => by omega⟩
  · refine .pure (hfix g fun i hi => ?_)
    obtain ⟨b, k, hb, hi⟩ := exists_position hi
    exact hg.before b k i hi (.inl (hg.length_eq ▸ hb))

/-! ## Frame code -/

theorem replaceAt_insertAt {b k : Nat} {i : Instruction} {g : Function}
    (h : f.insertAt b k i = .ok g) (new : List Instruction) :
    g.instruction? b k = some i ∧
      g.replaceAt b k new = f.modifyBlock b fun block => block.splice k 0 new := by
  rw [insertAt, changeBlock] at h
  split at h
  · next block hblock =>
    obtain ⟨block', hinsert, h⟩ := bind_eq_ok.mp h
    cases h
    obtain ⟨hget, hsplice⟩ := Block.splice_insertAt hinsert new
    have hb := (List.getElem?_eq_some_iff.mp hblock).1
    refine ⟨?_, ?_⟩
    · simp [instruction?, hb, hget]
    · rw [replaceAt, modifyBlock, modifyBlock]
      congr 1
      refine List.ext_getElem? fun n => ?_
      rw [List.getElem?_modify, List.getElem?_modify, List.getElem?_set]
      by_cases hn : b = n
      · subst hn
        rw [if_pos rfl, if_pos hb, hblock]
        simpa using hsplice
      · simp [hn]
  · cases h

theorem yields_insertAt (f : Function) (b k : Nat) (i : Instruction) :
    Yields (fun _ => True) (f.insertAt b k i) := by
  rw [insertAt, changeBlock]
  split
  · rw [Block.insertAt]
    split
    · exact .ok trivial
    · exact .error rfl
  · exact .error rfl

theorem yields_insertSelected (ht : Selects t) (b k : Nat) {is : List Instruction}
    (his : ∀ i ∈ is, i.Allocated t) (h : f.All (·.Final t)) :
    Yields (fun g => g.All (·.Final t)) (insertSelected t b k is f) := by
  induction is generalizing f k with
  | nil => exact .ok h
  | cons i is ih =>
    rw [insertSelected]
    refine (yields_insertAt f b k i).bind_of_eq fun g hg _ => ?_
    refine (yields_selectAt ht (replaceAt_insertAt hg []).1 (his i (by simp))).bind ?_
    rintro _ ⟨new, rfl, hnew⟩
    refine ih _ (fun i hi => his i (by simp [hi])) ?_
    rw [(replaceAt_insertAt hg new).2]
    exact h.spliceBlock hnew

theorem allocated_adjustStack {op : GenericOp} (hop : op.widths = [3]) (size : Nat) :
    (adjustStack t op size).Allocated t := by
  refine ⟨?_, ?_⟩
  · show _ ∈ op.widths
    simp [adjustStack, hop]
  · simp [adjustStack]

theorem yields_accessSaved {frame : Frame} {op : GenericOp} (hop : op.widths = [3]) {saved : Saved}
    (hslot : saved.slot ∈ frame.objects.map (·.slot)) (hfinal : saved.operand.isFinal) :
    Yields (Instruction.Allocated t) (accessSaved t frame op saved) := by
  rw [accessSaved]
  refine (yields_position? hslot).bind fun position hposition => ?_
  obtain ⟨p, rfl⟩ := Option.isSome_iff_exists.mp hposition
  refine .pure ⟨?_, ?_⟩
  · show _ ∈ op.widths
    simp [hop]
  · simp [hfinal]

theorem slots_foldl_insert (saves : List (Saved × Nat)) (frame : Frame) :
    (saves.foldl (fun frame s => frame.insert s.1.slot s.2) frame).objects.map (·.slot) =
      frame.objects.map (·.slot) ++ saves.map (·.1.slot) := by
  induction saves generalizing frame with
  | nil => simp
  | cons s saves ih => rw [List.foldl_cons, ih]; simp [Frame.insert]

theorem yields_alignTo (value alignment : Nat) :
    Yields (fun _ => True) (Word.alignTo value alignment) := by
  rw [Word.alignTo]
  split
  · exact .ok trivial
  · exact yields_fit _ _

/-- **Frame code is final**: what it saves has a slot in the frame. -/
theorem yields_insertFrameCode (ht : Selects t) (h : f.All (·.Final t)) :
    Yields (fun g => g.All (·.Final t)) (f.insertFrameCode t) := by
  rw [insertFrameCode]
  split
  · exact .ok h
  · split
    · exact .error rfl
    · extract_lets saves saved returns g
      have hsaved : ∀ s ∈ saved, s.slot ∈ g.slots ∧ s.operand.isFinal := by
        intro s hs
        obtain ⟨save, hsave, rfl⟩ := List.mem_map.mp hs
        refine ⟨?_, ?_⟩
        · show save.1.slot ∈ (List.foldl _ f.frame saves).objects.map (·.slot)
          rw [slots_foldl_insert]
          exact List.mem_append_right _ (List.mem_map_of_mem hsave)
        · obtain ⟨⟨reg, n⟩, -, rfl⟩ := List.mem_map.mp hsave
          rfl
      have haccess : ∀ op : GenericOp, op.widths = [3] → ∀ s ∈ saved,
          Yields (Instruction.Allocated t) (accessSaved t g.frame op s) :=
        fun op hop s hs => yields_accessSaved hop (hsaved s hs).1 (hsaved s hs).2
      refine (yields_fit _ _).bind fun size _ => ?_
      refine (yields_alignTo _ _).bind fun size _ => ?_
      split
      · exact .throw rfl
      · refine (Yields.mapM fun s hs => haccess .store rfl s hs).bind fun stores hstores => ?_
        refine (Yields.mapM fun s hs => haccess .load rfl s (List.mem_reverse.mp hs)).bind
          fun loads hloads => ?_
        extract_lets entry leave
        have hleave : ∀ i ∈ leave, i.Allocated t := by
          intro i hi
          rcases List.mem_append.mp hi with hi | hi
          · exact hloads i hi
          · rw [List.mem_singleton.mp hi]
            exact allocated_adjustStack rfl size
        have hentry : ∀ i ∈ entry, i.Allocated t := by
          intro i hi
          rcases List.mem_cons.mp hi with rfl | hi
          · exact allocated_adjustStack rfl size
          · exact hstores i hi
        have hg : g.All (·.Final t) := h
        refine Yields.bind (P := fun g => g.All (·.Final t)) (.foldlM hg ?_)
          fun g hg => yields_insertSelected ht 0 0 hentry hg
        exact fun g hg r _ => yields_insertSelected ht r.1 r.2 hleave hg

end Machine.Function

end Retarget
