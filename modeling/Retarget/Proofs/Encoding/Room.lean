import Mathlib.Algebra.GroupWithZero.Nat
import Mathlib.Algebra.Order.BigOperators.Group.List
import Mathlib.Algebra.Order.Group.Nat
import Retarget.Proofs.Encoding.Immediates
import Retarget.Proofs.Lowering.FrameObjects

/-!
# Room for locals

The frame of a lowered function stays through all passes up to the code of the frame, which checks
its size.  What is checked are the sizes of the frame objects, and those keep 32 bits of the sizes
of locals.  So the objects are large enough, and a module with larger locals is rejected, exactly if
those sizes have no more than 32 bits (`room_iff`).
-/

namespace Retarget

open Machine Target

namespace Lowering

/-- An object has room for the bytes that it was made for if they have 32 bits. -/
theorem le_objectSize_iff {bytes : Nat} : bytes ≤ objectSize bytes ↔ bytes < Word.modulus 32 := by
  have hmin : Frame.minObjectSize < Word.modulus 32 := by decide
  have hmod : bytes % Word.modulus 32 < Word.modulus 32 := Nat.mod_lt bytes (by decide)
  rw [objectSize]
  constructor
  · exact fun hle => Nat.lt_of_le_of_lt hle (Nat.max_lt.mpr ⟨hmod, hmin⟩)
  · intro hlt
    rw [Nat.mod_eq_of_lt hlt]
    exact Nat.le_max_left _ _

end Lowering

theorem Pass.exists_run_at {t : Target} {s : Stage} {m m' : Machine.Module} {f : Function} {n : Nat}
    (h : Pass.run t m (.stage s) = .ok m') (hf : m.functions[n]? = some f) :
    ∃ g, m'.functions[n]? = some g ∧ s.run t f = .ok g := by
  obtain ⟨functions, hfunctions, h⟩ := bind_eq_ok.mp h
  cases h
  exact exists_getElem?_of_forall₂ (forall₂_of_mapM_eq_ok hfunctions) hf

namespace Options

variable {o : Options} {m : Ir.Module} {code : Machine.Module} {f : Ir.Function} {g : Function}

/-- The passes that a function with a body goes through.  Declarations have no code. -/
theorem exists_passes_at (h : o.machineCode m = .ok code) {n : Nat}
    (hf : (m.functions.filter fun f => !f.isDeclaration)[n]? = some f) :
    ∃ g f₀ f₁ f₂ f₃ f₄, Lowering.lowerFunction o.target f = .ok g ∧
      f₀ = (if o.optimize then g.optimize else g) ∧ o.target.Produces f₀ ∧
      f₀.legalize o.target = .ok f₁ ∧
      (f₁.selectClasses o.target).allocateRegisters o.target = .ok f₂ ∧
      f₂.selectInstructions o.target = .ok f₃ ∧ f₃.insertFrameCode o.target = .ok f₄ ∧
      code.functions[n]? = some f₄ := by
  obtain ⟨lowered, hlowered, h⟩ := bind_eq_ok.mp h
  rw [passes, List.foldlM_append] at h
  obtain ⟨m₀, hoptimize, h⟩ := bind_eq_ok.mp h
  obtain ⟨g, hg, hlower⟩ : ∃ g, lowered.functions[n]? = some g ∧
      Lowering.lowerFunction o.target f = .ok g := by
    obtain ⟨globals, -, hlowered⟩ := bind_eq_ok.mp hlowered
    obtain ⟨functions, hfunctions, hlowered⟩ := bind_eq_ok.mp hlowered
    cases hlowered
    exact exists_getElem?_of_forall₂ (forall₂_of_mapM_eq_ok hfunctions) hf
  have hproduced : ∃ f₀, m₀.functions[n]? = some f₀ ∧
      f₀ = (if o.optimize then g.optimize else g) := by
    split at hoptimize
    · next hopt =>
      obtain ⟨m₁, hrun, hoptimize⟩ := bind_eq_ok.mp hoptimize
      cases hoptimize
      obtain ⟨functions, hfunctions, hrun⟩ := bind_eq_ok.mp hrun
      cases hrun
      obtain ⟨f₀, hf₀, hoptimized⟩ := exists_getElem?_of_forall₂ (forall₂_of_mapM_eq_ok hfunctions) hg
      exact ⟨f₀, hf₀, by rw [if_pos hopt, (Function.optimized_eq_ok.mp hoptimized).2]⟩
    · next hopt =>
      cases hoptimize
      exact ⟨g, hg, (if_neg hopt).symm⟩
  obtain ⟨f₀, hf₀, hsame⟩ := hproduced
  have hproduces : o.target.Produces f₀ := by
    refine ⟨m, lowered, hlowered, g, List.mem_of_getElem? hg, ?_⟩
    rw [hsame]
    split
    · exact .inr rfl
    · exact .inl rfl
  obtain ⟨m₁, h₁, h⟩ := bind_eq_ok.mp h
  obtain ⟨m₂, h₂, h⟩ := bind_eq_ok.mp h
  obtain ⟨m₃, h₃, h⟩ := bind_eq_ok.mp h
  obtain ⟨m₄, h₄, h⟩ := bind_eq_ok.mp h
  obtain ⟨m₅, h₅, h⟩ := bind_eq_ok.mp h
  cases h
  obtain ⟨f₁, hf₁, hlegalize⟩ := Pass.exists_run_at h₁ hf₀
  obtain ⟨f₂, hf₂, hclasses⟩ := Pass.exists_run_at h₂ hf₁
  cases hclasses
  obtain ⟨f₃, hf₃, hallocate⟩ := Pass.exists_run_at h₃ hf₂
  obtain ⟨f₄, hf₄, hselect⟩ := Pass.exists_run_at h₄ hf₃
  obtain ⟨f₅, hf₅, hframes⟩ := Pass.exists_run_at h₅ hf₄
  exact ⟨g, f₀, f₁, f₃, f₄, f₅, hlower, hsame, hproduces, hlegalize, hallocate, hselect, hframes,
    hf₅⟩

/-- **The frame objects of a compiled function are within the limit** together. -/
theorem sum_sizes_le (h : o.machineCode m = .ok code) (hf : f ∈ m.functions)
    (hbody : f.isDeclaration = false) (hlower : Lowering.lowerFunction o.target f = .ok g) :
    (g.frame.objects.map (·.size)).sum ≤ Function.maxFrameSize := by
  have hmem : f ∈ m.functions.filter fun f => !f.isDeclaration :=
    List.mem_filter.mpr ⟨hf, by simp [hbody]⟩
  obtain ⟨n, hn⟩ := List.getElem?_of_mem hmem
  obtain ⟨g', f₀, f₁, f₂, f₃, f₄, hlower', hsame, -, h₁, h₂, h₃, h₄, -⟩ := exists_passes_at h hn
  cases hlower.symm.trans hlower'
  have hframe₀ : f₀.frame = g.frame := by
    rw [hsame]
    split
    · exact Function.frame_optimize g
    · rfl
  have hframe₁ : f₁.frame = f₀.frame := (Function.notes_legalize h₁).1
  have hframe : f₃.frame = g.frame := calc
    f₃.frame = f₂.frame := Function.frame_selectInstructions h₃
    _ = (f₁.selectClasses o.target).frame := Function.frame_allocateRegisters h₂
    _ = f₀.frame := hframe₁
    _ = g.frame := hframe₀
  have hle := Function.foldr_size_le_of_insertFrameCode h₄
  rwa [hframe, ← List.foldr_map] at hle

/-- **Frame objects are large enough, and locals over the limit are rejected**, exactly where the
sizes of the locals have no more than 32 bits. -/
theorem room_iff (hlower : Lowering.lowerFunction o.target f = .ok g) : ∃ sizes,
    (f.locals o.target).mapM (·.size o.target.pointerBytes) = .ok sizes ∧
    (List.Forall₂ (· ≤ ·) sizes (g.frame.objects.map (·.size)) ↔
      ∀ bytes ∈ sizes, bytes < Word.modulus 32) ∧
    ∀ m code, o.machineCode m = .ok code → f ∈ m.functions → f.isDeclaration = false →
      (sizes.sum ≤ Function.maxFrameSize ↔ ∀ bytes ∈ sizes, bytes < Word.modulus 32) := by
  obtain ⟨sizes, hsizes, hobjects⟩ := Lowering.sizes_lowerFunction hlower
  refine ⟨sizes, hsizes, ?_,
    fun m code h hf hbody => ⟨fun hle bytes hbytes => ?_, fun hsmall => ?_⟩⟩
  · simp only [hobjects, List.forall₂_map_right_iff, List.forall₂_same,
      Lowering.le_objectSize_iff]
  · calc
      bytes ≤ sizes.sum := List.le_sum_of_mem hbytes
      _ ≤ Function.maxFrameSize := hle
      _ < Word.modulus 32 := by decide
  · calc
      sizes.sum = (sizes.map id).sum := by rw [List.map_id]
      _ ≤ (sizes.map Lowering.objectSize).sum :=
        List.sum_le_sum fun bytes hbytes => Lowering.le_objectSize_iff.mpr (hsmall bytes hbytes)
      _ ≤ Function.maxFrameSize := hobjects ▸ sum_sizes_le h hf hbody hlower

/-- A local, a parameter in pieces, a copy of an array that is too large for registers, and the
result of a call. -/
def spacious : Ir.Module where
  name := "m"
  functions := [
    { name := "g"
      returnType := .struct none [.i32]
      parameters := []
      blocks := [] },
    { name := "f"
      returnType := .void
      parameters := [⟨"s", .struct none [.i32, .i8], false⟩]
      blocks := [{
        name := "entry"
        instructions := [
          .stackAlloc 0 "x" (.array 50 .i16),
          .load 1 (.temp 0 (.ptr (.array 25 .i8))) (.array 25 .i8),
          .call (some 2) "g" [] (.struct none [.i32]) none,
          .ret none] }] }]

theorem room_spacious : ∃ f ∈ spacious.functions, ∃ g code,
    Lowering.lowerFunction aarch64 f = .ok g ∧ machineCode {} spacious = .ok code ∧
    (f.locals aarch64).mapM (·.size 8) = .ok [5, 100, 25, 4] ∧
    List.Forall₂ (· ≤ ·) [5, 100, 25, 4] (g.frame.objects.map (·.size)) := by
  have hlower : (Lowering.lowerFunction aarch64 spacious.functions[1]).map
      (fun g => g.frame.objects.length) = .ok 4 := by
    decide +kernel
  have hrun : (machineCode {} spacious).map (·.functions.length) = .ok 1 := by decide +kernel
  obtain ⟨g, hg, -⟩ := map_eq_ok.mp hlower
  obtain ⟨code, hcode, -⟩ := map_eq_ok.mp hrun
  obtain ⟨sizes, hsizes, hroom, -⟩ := room_iff (o := {}) hg
  have hlocals : (spacious.functions[1].locals aarch64).mapM (·.size 8) = .ok [5, 100, 25, 4] := by
    decide +kernel
  cases hsizes.symm.trans hlocals
  exact ⟨_, List.getElem_mem _, g, code, hg, hcode, hlocals, hroom.mpr (by decide)⟩

/-- A local of four gigabytes. -/
def vast : Ir.Module where
  name := "m"
  functions := [{
    name := "f"
    returnType := .void
    parameters := []
    blocks := [{
      name := "entry"
      instructions := [.stackAlloc 0 "x" (.array 4294967296 .i8), .ret none] }] }]

/-- **A local of four gigabytes gets a frame object of four bytes**, and the module compiles. -/
theorem not_room_vast : ∃ f ∈ vast.functions, ∀ a : Arch, ∃ g code,
    Lowering.lowerFunction a.target f = .ok g ∧ machineCode { arch := a } vast = .ok code ∧
    (f.locals a.target).mapM (·.size a.target.pointerBytes) = .ok [4294967296] ∧
    g.frame.objects.map (·.size) = [4] := by
  refine ⟨vast.functions[0], List.getElem_mem _, fun a => ?_⟩
  have hlower : (Lowering.lowerFunction a.target vast.functions[0]).map
      (fun g => g.frame.objects.map (·.size)) = .ok [4] := by
    cases a <;> decide +kernel
  have hrun : (machineCode { arch := a } vast).map (·.functions.length) = .ok 1 := by
    cases a <;> decide +kernel
  obtain ⟨g, hg, hsizes⟩ := map_eq_ok.mp hlower
  obtain ⟨code, hcode, -⟩ := map_eq_ok.mp hrun
  exact ⟨g, code, hg, hcode, by cases a <;> decide +kernel, hsizes⟩

end Options

end Retarget
