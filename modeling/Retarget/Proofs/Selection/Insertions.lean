import Retarget.Proofs.Selection.Walk

/-!
# Inserted code

Frame code is inserted into native code and selected on the spot.  What stands in the function
afterwards stood there before or is what an inserted instruction became, and nothing is lost
(`Adds`).
-/

namespace Retarget.Machine.Function

open Target

variable {t : Target} {f g h : Function} {b k : Nat} {is js : List Instruction}

/-- Native code that an instruction becomes, wherever it stands. -/
def Becomes (t : Target) (i : Instruction) (new : List Instruction) : Prop :=
  ∃ f b k, Became t f b k i new

/-- `g` has all of the code of `f` and all that the instructions `is` become, and nothing else. -/
structure Adds (t : Target) (is : List Instruction) (f g : Function) : Prop where
  frame : g.frame = f.frame
  kept : f.instructions ⊆ g.instructions
  added : ∀ i ∈ is, ∃ new, Becomes t i new ∧ new ⊆ g.instructions
  cases : ∀ j ∈ g.instructions, j ∈ f.instructions ∨ ∃ i ∈ is, ∃ new, Becomes t i new ∧ j ∈ new

theorem Adds.refl (f : Function) : Adds t [] f f :=
  ⟨rfl, fun _ hi => hi, by simp, fun _ hj => .inl hj⟩

theorem Adds.trans (hg : Adds t is f g) (hh : Adds t js g h) : Adds t (is ++ js) f h := by
  refine ⟨hh.frame.trans hg.frame, fun i hi => hh.kept (hg.kept hi), fun i hi => ?_,
    fun j hj => ?_⟩
  · rcases List.mem_append.mp hi with hi | hi
    · obtain ⟨new, hnew, hsub⟩ := hg.added i hi
      exact ⟨new, hnew, fun j hj => hh.kept (hsub hj)⟩
    · exact hh.added i hi
  · rcases hh.cases j hj with hj | ⟨i, hi, hnew⟩
    · rcases hg.cases j hj with hj | ⟨i, hi, hnew⟩
      · exact .inl hj
      · exact .inr ⟨i, List.mem_append_left js hi, hnew⟩
    · exact .inr ⟨i, List.mem_append_right is hi, hnew⟩

theorem Adds.congr (hg : Adds t is f g) (his : is ⊆ js) (hjs : js ⊆ is) : Adds t js f g := by
  refine ⟨hg.frame, hg.kept, fun i hi => hg.added i (hjs hi), fun j hj => ?_⟩
  rcases hg.cases j hj with hj | ⟨i, hi, hnew⟩
  · exact .inl hj
  · exact .inr ⟨i, his hi, hnew⟩

theorem mem_instructions_splice {new : List Instruction} (hb : b < f.blocks.length)
    {j : Instruction} :
    j ∈ (f.modifyBlock b fun block => block.splice k 0 new).instructions ↔
      j ∈ f.instructions ∨ j ∈ new := by
  have hblock : ∀ block : Block, ∀ j, j ∈ (block.splice k 0 new).instructions ↔
      j ∈ block.instructions ∨ j ∈ new := by
    intro block j
    rw [Block.splice, Nat.add_zero]
    conv_rhs => rw [← List.take_append_drop k block.instructions]
    simp only [List.mem_append]
    tauto
  rw [mem_instructions, mem_instructions, modifyBlock]
  constructor
  · rintro ⟨block, hmem, hj⟩
    obtain ⟨c, hc⟩ := List.mem_iff_getElem?.mp hmem
    rw [List.getElem?_modify] at hc
    obtain ⟨old, hold, rfl⟩ := Option.map_eq_some_iff.mp hc
    split at hj
    · exact ((hblock old j).mp hj).imp_left fun hj => ⟨old, List.mem_of_getElem? hold, hj⟩
    · exact .inl ⟨old, List.mem_of_getElem? hold, hj⟩
  · rintro (⟨block, hmem, hj⟩ | hj)
    · obtain ⟨c, hc⟩ := List.mem_iff_getElem?.mp hmem
      refine ⟨_, List.mem_of_getElem? (i := c) (by rw [List.getElem?_modify, hc]; rfl), ?_⟩
      dsimp only
      split
      · exact (hblock block j).mpr (.inl hj)
      · exact hj
    · refine ⟨f.blocks[b].splice k 0 new,
        List.mem_of_getElem? (i := b) ?_, (hblock _ j).mpr (.inr hj)⟩
      rw [List.getElem?_modify_eq, List.getElem?_eq_getElem hb]
      rfl

theorem adds_insertSelected (hg : insertSelected t b k is f = .ok g) : Adds t is f g := by
  induction is generalizing f k with
  | nil =>
    cases hg
    exact .refl _
  | cons i is ih =>
    rw [insertSelected] at hg
    obtain ⟨f₁, hinsert, hg⟩ := bind_eq_ok.mp hg
    obtain ⟨r, hselect, hg⟩ := bind_eq_ok.mp hg
    have hi := (replaceAt_insertAt hinsert []).1
    obtain ⟨new, rfl, hnew⟩ := selectAt_eq_ok hi hselect
    obtain ⟨hframe, hb⟩ : f₁.frame = f.frame ∧ b < f.blocks.length := by
      rw [insertAt, changeBlock] at hinsert
      split at hinsert
      · next hblock =>
        obtain ⟨block', -, hinsert⟩ := bind_eq_ok.mp hinsert
        cases hinsert
        exact ⟨rfl, (List.getElem?_eq_some_iff.mp hblock).1⟩
      · cases hinsert
    have hmem : ∀ j, j ∈ (f₁.replaceAt b k new).instructions ↔ j ∈ f.instructions ∨ j ∈ new := by
      intro j
      rw [(replaceAt_insertAt hinsert new).2]
      exact mem_instructions_splice hb
    have hfirst : Adds t [i] f (f₁.replaceAt b k new) := by
      refine ⟨hframe, fun j hj => (hmem j).mpr (.inl hj), ?_, fun j hj => ?_⟩
      · rintro _ (_ | ⟨_, ⟨⟩⟩)
        exact ⟨new, ⟨_, _, _, hnew⟩, fun j hj => (hmem j).mpr (.inr hj)⟩
      · exact ((hmem j).mp hj).imp_right fun hj => ⟨i, by simp, new, ⟨_, _, _, hnew⟩, hj⟩
    exact hfirst.trans (ih hg)

/-- Code inserted at several places is the same as far as its instructions go. -/
theorem adds_insertAll {places : List (Nat × Nat)} (hne : places ≠ [])
    (hg : places.foldlM (fun f place => insertSelected t place.1 place.2 is f) f = .ok g) :
    Adds t is f g := by
  induction places generalizing f with
  | nil => exact absurd rfl hne
  | cons place places ih =>
    rw [List.foldlM_cons] at hg
    obtain ⟨f₁, hfirst, hg⟩ := bind_eq_ok.mp hg
    have hfirst : Adds t is f f₁ := adds_insertSelected hfirst
    by_cases hplaces : places = []
    · subst hplaces
      cases hg
      exact hfirst
    · exact (hfirst.trans (ih hplaces hg)).congr (by simp) (by simp)

theorem le_of_alignTo {value alignment aligned : Nat}
    (h : Word.alignTo value alignment = .ok aligned) : value ≤ aligned := by
  rw [Word.alignTo] at h
  split at h
  · cases h
    exact Nat.le_refl _
  · next hne =>
    rw [Word.fit] at h
    split at h
    · cases h
      have hpos : 0 < alignment := Nat.pos_of_ne_zero hne
      have hdiv := Nat.div_add_mod (value + alignment - 1) alignment
      have hmod := Nat.mod_lt (value + alignment - 1) hpos
      rw [Nat.mul_comm] at hdiv
      omega
    · cases h

/-- Where the registers to save go, one after another. -/
def saved (t : Target) (f : Function) : List Saved :=
  (f.registersToSave t).zipIdx.map fun e => (savedAt t e.1 e.2).1

/-- The frame with the slots for the registers to save. -/
def savingFrame (t : Target) (f : Function) : Frame :=
  ((f.registersToSave t).zipIdx.map fun e => savedAt t e.1 e.2).foldl
    (fun frame s => frame.insert s.1.slot s.2) f.frame

/-- A function without a frame stays as it is; another one returns somewhere, has a frame within the
limit, and gets the code in front of its returns and then the code at its entry. -/
theorem insertFrameCode_eq_ok (hg : f.insertFrameCode t = .ok g) :
    g = f ∧ f.frame.objects = [] ∧ f.registersToSave t = [] ∨
    ∃ bytes size stores loads f₂, f.returns ≠ [] ∧ (f.savingFrame t).size = .ok bytes ∧
      Word.alignTo bytes t.convention.stackAlignment = .ok size ∧ size ≤ maxFrameSize ∧
      (f.saved t).mapM (accessSaved t (f.savingFrame t) .store) = .ok stores ∧
      (f.saved t).reverse.mapM (accessSaved t (f.savingFrame t) .load) = .ok loads ∧
      f.returns.reverse.foldlM
        (fun f (b, i) => insertSelected t b i (loads ++ [adjustStack t .add size]) f)
        { f with frame := f.savingFrame t } = .ok f₂ ∧
      insertSelected t 0 0 (adjustStack t .sub size :: stores) f₂ = .ok g := by
  rw [insertFrameCode] at hg
  split at hg
  · next hnothing =>
    simp only [Bool.and_eq_true, Bool.not_eq_true', List.isEmpty_iff, Frame.isEmpty] at hnothing
    exact .inl ⟨(Except.ok.inj hg).symm, hnothing.1.1, by simp [registersToSave, hnothing]⟩
  · split at hg
    · cases hg
    · next hreturns =>
      extract_lets saves saved returns f₁ at hg
      obtain ⟨bytes, hbytes, hg⟩ := bind_eq_ok.mp hg
      obtain ⟨size, hsize, hg⟩ := bind_eq_ok.mp hg
      split at hg
      · cases hg
      next hsmall =>
      obtain ⟨stores, hstores, hg⟩ := bind_eq_ok.mp hg
      obtain ⟨loads, hloads, hg⟩ := bind_eq_ok.mp hg
      obtain ⟨f₂, hleave, hg⟩ := bind_eq_ok.mp hg
      have hsaved : saved = f.saved t := by
        simp only [saved, saves, Function.saved, List.map_map]
        rfl
      rw [hsaved] at hstores hloads
      exact .inr ⟨bytes, size, stores, loads, f₂, by simpa using hreturns, hbytes, hsize,
        Nat.not_lt.mp hsmall, hstores, hloads, hleave, hg⟩

/-- **Frame code adds the moves of the stack pointer and the accesses to saved registers**, in a
frame that is small enough. -/
theorem adds_insertFrameCode (hg : f.insertFrameCode t = .ok g) :
    g = f ∧ f.registersToSave t = [] ∨
    ∃ bytes size saves stores loads, g.frame.size = .ok bytes ∧ bytes ≤ size ∧
      size ≤ maxFrameSize ∧
      saves = ((f.registersToSave t).zipIdx.map fun e => (savedAt t e.1 e.2).1) ∧
      saves.mapM (accessSaved t g.frame .store) = .ok stores ∧
      saves.reverse.mapM (accessSaved t g.frame .load) = .ok loads ∧
      Adds t (loads ++ [adjustStack t .add size] ++ adjustStack t .sub size :: stores)
        { f with frame := g.frame } g := by
  rcases insertFrameCode_eq_ok hg with ⟨rfl, -, hnone⟩ |
    ⟨bytes, size, stores, loads, f₂, hne, hbytes, hsize, hsmall, hstores, hloads, hleave, hg⟩
  · exact .inl ⟨rfl, hnone⟩
  · have hadds : Adds t (loads ++ [adjustStack t .add size] ++ adjustStack t .sub size :: stores)
        { f with frame := f.savingFrame t } g :=
      (adds_insertAll (by simpa using hne) hleave).trans (adds_insertSelected hg)
    have hframe : g.frame = f.savingFrame t := hadds.frame
    exact .inr ⟨bytes, size, f.saved t, stores, loads, hframe ▸ hbytes, le_of_alignTo hsize, hsmall,
      rfl, hframe ▸ hstores, hframe ▸ hloads, hframe ▸ hadds⟩

end Retarget.Machine.Function
