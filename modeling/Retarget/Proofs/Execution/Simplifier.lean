import Retarget.Proofs.Execution.Dominance

/-!
# The walk of the simplifier

The simplifier goes through the blocks in order.  At every point it knows some values and has made
some renamings (`knownAt`, `renamesAt`); it drops the instruction there or keeps it (`Dropped`).
What is left of a block is what it still has to go through, under all the renamings it ends up with
(`rest_simplify`).
-/

namespace Retarget

/-- A walk goes through the states that its steps lead to. -/
theorem mapAccum_spec {σ α β : Type} (step : σ → α → σ × β) (state : Nat → σ) {as : List α}
    (hstep : ∀ n a, as[n]? = some a → state (n + 1) = (step (state n) a).1) :
    (mapAccum step (state 0) as).1 = state as.length ∧
      ∀ n, (mapAccum step (state 0) as).2[n]? = as[n]?.map fun a => (step (state n) a).2 := by
  induction as generalizing state with
  | nil => exact ⟨rfl, fun _ => rfl⟩
  | cons a as ih =>
    have hfirst : state 1 = (step (state 0) a).1 := hstep 0 a rfl
    obtain ⟨hlast, hall⟩ := ih (fun n => state (n + 1)) fun n b hb => hstep (n + 1) b hb
    rw [mapAccum]
    dsimp only
    rw [← hfirst]
    refine ⟨hlast, fun n => ?_⟩
    cases n with
    | zero => rfl
    | succ n => exact hall n

namespace Machine

variable {f : Function} {b k : Nat} {i : Instruction} {defs : List RegId} {kn : Known}
  {rs : Renames} {x : Point} {entry : RegId × Source}

theorem subset_simplifyFrom (is : List Instruction) :
    rs.entries ⊆ (simplifyFrom defs kn rs is).1.entries := by
  induction is generalizing kn rs with
  | nil => exact List.Subset.refl _
  | cons i is ih =>
    rw [simplifyFrom]
    dsimp only
    split
    · exact List.Subset.trans (List.subset_cons_self _ _) ih
    · exact ih

namespace Function

/-- What is known and renamed after `k` instructions of block `b`. -/
def progressFrom (f : Function) (b : Nat) (start : Renames) : Nat → Known × Renames
  | 0 => ({}, start)
  | k + 1 =>
    let (known, rs) := f.progressFrom b start k
    match f.instruction? b k with
    | none => (known, rs)
    | some i =>
      match known.redundant? f.definitions (rs.apply i) with
      | some (dest, source) => (known, rs.insert dest source)
      | none => (known.after f.definitions (rs.apply i), rs)

/-- The renamings that the blocks before block `b` take. -/
def renamesBefore (f : Function) : Nat → Renames
  | 0 => {}
  | b + 1 => (f.progressFrom b (f.renamesBefore b) (f.blockLength b)).2

def knownAt (f : Function) (x : Point) : Known :=
  (f.progressFrom x.1 (f.renamesBefore x.1) x.2).1

/-- The renamings that are made before a point. -/
def renamesAt (f : Function) (x : Point) : Renames :=
  (f.progressFrom x.1 (f.renamesBefore x.1) x.2).2

def allRenames (f : Function) : Renames := f.renamesBefore f.blocks.length

/-- The instruction at the point is replaced by a renaming. -/
def Dropped (f : Function) (x : Point) (entry : RegId × Source) : Prop :=
  ∃ i, f.instruction? x.1 x.2 = some i ∧
    (f.knownAt x).redundant? f.definitions ((f.renamesAt x).apply i) = some entry

theorem knownAt_zero (f : Function) (b : Nat) : f.knownAt (b, 0) = {} := rfl

theorem progress_of_none (h : f.instruction? b k = none) :
    f.knownAt (b, k + 1) = f.knownAt (b, k) ∧ f.renamesAt (b, k + 1) = f.renamesAt (b, k) := by
  simp [knownAt, renamesAt, progressFrom, h]

theorem progress_of_drop (h : f.Dropped (b, k) entry) :
    f.knownAt (b, k + 1) = f.knownAt (b, k) ∧
      f.renamesAt (b, k + 1) = (f.renamesAt (b, k)).insert entry.1 entry.2 := by
  obtain ⟨i, hi, hentry⟩ := h
  simp only [knownAt, renamesAt] at hi hentry ⊢
  simp [progressFrom, hi, hentry]

theorem progress_of_keep (hi : f.instruction? b k = some i)
    (h : (f.knownAt (b, k)).redundant? f.definitions ((f.renamesAt (b, k)).apply i) = none) :
    f.knownAt (b, k + 1) = (f.knownAt (b, k)).after f.definitions ((f.renamesAt (b, k)).apply i) ∧
      f.renamesAt (b, k + 1) = f.renamesAt (b, k) := by
  simp only [knownAt, renamesAt] at h ⊢
  simp [progressFrom, hi, h]

/-! ## What is left of a block -/

/-- What the simplifier makes of a block from a point on. -/
def remaining (f : Function) (x : Point) : Renames × List Instruction :=
  simplifyFrom f.definitions (f.knownAt x) (f.renamesAt x) (f.rest x.1 x.2)

theorem remaining_of_none (h : f.instruction? b k = none) :
    f.remaining (b, k) = (f.renamesAt (b, k), []) := by
  rw [remaining, rest_of_none h]
  rfl

theorem remaining_of_drop (h : f.Dropped (b, k) entry) :
    f.remaining (b, k) = f.remaining (b, k + 1) := by
  obtain ⟨hknown, hrenames⟩ := progress_of_drop h
  obtain ⟨i, hi, hentry⟩ := h
  rw [remaining, remaining, hknown, hrenames, rest_of_instruction? hi, simplifyFrom]
  dsimp only
  rw [hentry]

theorem remaining_of_keep (hi : f.instruction? b k = some i)
    (h : (f.knownAt (b, k)).redundant? f.definitions ((f.renamesAt (b, k)).apply i) = none) :
    f.remaining (b, k) = ((f.remaining (b, k + 1)).1,
      (f.renamesAt (b, k)).apply i :: (f.remaining (b, k + 1)).2) := by
  obtain ⟨hknown, hrenames⟩ := progress_of_keep hi h
  rw [remaining, remaining, hknown, hrenames, rest_of_instruction? hi, simplifyFrom]
  dsimp only
  rw [h]

/-- What holds of no code, and goes on to hold when an instruction in front is dropped or kept, holds
of the code of a block from any point on and what is left of it. -/
theorem remaining_induction {P : List Instruction → List Instruction → Prop} (f : Function)
    (b : Nat) (nil : P [] [])
    (drop : ∀ {k i entry}, f.instruction? b k = some i →
      (f.knownAt (b, k)).redundant? f.definitions ((f.renamesAt (b, k)).apply i) = some entry →
      ∀ {is js}, P is js → P (i :: is) js)
    (keep : ∀ {k i}, f.instruction? b k = some i →
      (f.knownAt (b, k)).redundant? f.definitions ((f.renamesAt (b, k)).apply i) = none →
      ∀ {is js}, P is js → P (i :: is) ((f.renamesAt (b, k)).apply i :: js)) (k : Nat) :
    P (f.rest b k) (f.remaining (b, k)).2 := by
  generalize hrest : f.rest b k = is
  induction is generalizing k with
  | nil =>
    have hnone : f.instruction? b k = none := by
      rw [instruction?_eq_head?, hrest]
      rfl
    rw [remaining_of_none hnone]
    exact nil
  | cons i is ih =>
    have hi : f.instruction? b k = some i := instruction?_of_rest hrest
    have hnext : f.rest b (k + 1) = is := by
      rw [rest_succ, hrest]
      rfl
    cases hredundant :
      (f.knownAt (b, k)).redundant? f.definitions ((f.renamesAt (b, k)).apply i) with
    | some entry =>
      rw [remaining_of_drop ⟨i, hi, hredundant⟩]
      exact drop hi hredundant (ih (k + 1) hnext)
    | none =>
      rw [remaining_of_keep hi hredundant]
      exact keep hi hredundant (ih (k + 1) hnext)

theorem remaining_fst_succ (f : Function) (b k : Nat) :
    (f.remaining (b, k + 1)).1 = (f.remaining (b, k)).1 := by
  cases hi : f.instruction? b k with
  | none =>
    have hnone : f.instruction? b (k + 1) = none := by
      rw [instruction?_eq_head?, rest_succ, rest_of_none hi]
      rfl
    rw [remaining_of_none hi, remaining_of_none hnone, (progress_of_none hi).2]
  | some i =>
    cases h : (f.knownAt (b, k)).redundant? f.definitions ((f.renamesAt (b, k)).apply i) with
    | none => rw [remaining_of_keep hi h]
    | some entry => rw [remaining_of_drop ⟨i, hi, h⟩]

theorem remaining_fst (f : Function) (b k : Nat) :
    (f.remaining (b, k)).1 = f.renamesBefore (b + 1) := by
  have hconst : ∀ k, (f.remaining (b, k)).1 = (f.remaining (b, 0)).1 := by
    intro k
    induction k with
    | zero => rfl
    | succ k ih => rw [remaining_fst_succ, ih]
  have hend : f.instruction? b (f.blockLength b) = none := by
    rw [instruction?, blockLength]
    cases f.blocks[b]? <;> simp
  rw [hconst, ← hconst (f.blockLength b), remaining_of_none hend]
  rfl

theorem renamesBefore_mono {b' : Nat} (h : b ≤ b') :
    (f.renamesBefore b).entries ⊆ (f.renamesBefore b').entries := by
  induction h with
  | refl => exact List.Subset.refl _
  | @step n _ ih =>
    refine List.Subset.trans ih ?_
    rw [← remaining_fst f n 0]
    exact subset_simplifyFrom (f.rest n 0)

theorem renamesAt_subset (f : Function) (b k : Nat) :
    (f.renamesAt (b, k)).entries ⊆ (f.renamesBefore (b + 1)).entries := by
  rw [← remaining_fst f b k]
  exact subset_simplifyFrom (f.rest b k)

theorem renamesBefore_subset (hi : f.instruction? b k = some i) :
    (f.renamesBefore (b + 1)).entries ⊆ f.allRenames.entries := by
  obtain ⟨block, hblock, -⟩ := Option.bind_eq_some_iff.mp hi
  exact renamesBefore_mono (List.getElem?_eq_some_iff.mp hblock).1

theorem renamesAt_subset_all (hi : f.instruction? b k = some i) :
    (f.renamesAt (b, k)).entries ⊆ f.allRenames.entries :=
  List.Subset.trans (f.renamesAt_subset b k) (renamesBefore_subset hi)

theorem Dropped.mem_all (h : f.Dropped (b, k) entry) : entry ∈ f.allRenames.entries := by
  have hmem : entry ∈ (f.renamesAt (b, k + 1)).entries := by
    rw [(progress_of_drop h).2]
    exact List.mem_cons_self
  obtain ⟨i, hi, -⟩ := h
  exact renamesBefore_subset hi (f.renamesAt_subset b (k + 1) hmem)

theorem remaining_zero {block : Block} (h : f.blocks[b]? = some block) :
    f.remaining (b, 0) =
      simplifyFrom f.definitions {} (f.renamesBefore b) block.instructions := by
  rw [remaining, rest, h]
  rfl

def simplifyBlock (f : Function) (rs : Renames) (b : Block) : Renames × Block :=
  ((simplifyFrom f.definitions {} rs b.instructions).1,
    { b with instructions := (simplifyFrom f.definitions {} rs b.instructions).2 })

theorem simplify_eq (f : Function) :
    f.simplify = ({ f with blocks := (mapAccum f.simplifyBlock {} f.blocks).2 } :
      Function).mapInstructions (mapAccum f.simplifyBlock {} f.blocks).1.apply :=
  rfl

theorem blocks_simplify (f : Function) (b : Nat) :
    f.simplify.blocks[b]? = f.blocks[b]?.map fun block =>
      { block with instructions := (f.remaining (b, 0)).2.map f.allRenames.apply } := by
  obtain ⟨hlast, hall⟩ : (mapAccum f.simplifyBlock (f.renamesBefore 0) f.blocks).1 =
      f.allRenames ∧ ∀ n, (mapAccum f.simplifyBlock (f.renamesBefore 0) f.blocks).2[n]? =
        f.blocks[n]?.map fun block => (f.simplifyBlock (f.renamesBefore n) block).2 := by
    refine mapAccum_spec f.simplifyBlock f.renamesBefore fun n block hblock => ?_
    rw [← remaining_fst f n 0, remaining_zero hblock]
    rfl
  rw [simplify_eq, mapInstructions, List.getElem?_map]
  rw [renamesBefore] at hlast hall
  rw [hall, hlast]
  cases hblock : f.blocks[b]? with
  | none => rfl
  | some block => simp [simplifyBlock, remaining_zero hblock]

theorem rest_simplify (f : Function) (b : Nat) :
    f.simplify.rest b 0 = (f.remaining (b, 0)).2.map f.allRenames.apply := by
  rw [rest, blocks_simplify]
  cases hblock : f.blocks[b]? with
  | none =>
    have hnone : f.instruction? b 0 = none := by
      rw [instruction?, hblock]
      rfl
    rw [remaining_of_none hnone]
    rfl
  | some block => rfl

theorem map_name_simplify (f : Function) :
    f.simplify.blocks.map (·.name) = f.blocks.map (·.name) := by
  refine List.ext_getElem? fun b => ?_
  rw [List.getElem?_map, List.getElem?_map, blocks_simplify, Option.map_map]
  rfl

theorem length_blocks_simplify (f : Function) : f.simplify.blocks.length = f.blocks.length := by
  simpa using congrArg List.length f.map_name_simplify

theorem blockIndex?_simplify (f : Function) : f.simplify.blockIndex? = f.blockIndex? := by
  funext name
  have hnames := congrArg (List.findIdx? (· == name)) f.map_name_simplify
  rwa [List.findIdx?_map, List.findIdx?_map] at hnames

end Function

end Machine

end Retarget
