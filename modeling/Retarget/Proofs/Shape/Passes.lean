import Retarget.Proofs.Shape.Basic
import Retarget.RegisterClass
import Retarget.Simplification

/-!
# Simplification and register classes keep shapes

Both passes change operands one by one and keep their traits, so a shaped function stays shaped over
the same frame (`All.optimize`, `All.selectClasses`).  Whatever each step of the simplifier keeps
holds of simplified code (`SimplifierKeeps.simplify`).
-/

namespace Retarget

theorem mem_mapAccum {σ α β : Type} {step : σ → α → σ × β} {s : σ} {as : List α} {b : β}
    (h : b ∈ (mapAccum step s as).2) : ∃ s', ∃ a ∈ as, b = (step s' a).2 := by
  induction as generalizing s with
  | nil => simp [mapAccum] at h
  | cons a as ih =>
    rw [mapAccum] at h
    rcases List.mem_cons.mp h with rfl | h
    · exact ⟨s, a, by simp, rfl⟩
    · obtain ⟨s', a', ha', rfl⟩ := ih h
      exact ⟨s', a', by simp [ha'], rfl⟩

theorem mapAccum_keeps {σ α β : Type} (step : σ → α → σ × β) {I : σ → Prop} {P : α → Prop}
    {Q : β → Prop} (hstep : ∀ s a, I s → P a → I (step s a).1 ∧ Q (step s a).2) {s : σ}
    {as : List α} (hs : I s) (has : ∀ a ∈ as, P a) :
    I (mapAccum step s as).1 ∧ ∀ b ∈ (mapAccum step s as).2, Q b := by
  induction as generalizing s with
  | nil => exact ⟨hs, by simp [mapAccum]⟩
  | cons a as ih =>
    obtain ⟨hs₁, hb⟩ := hstep s a hs (has a (by simp))
    obtain ⟨hs₂, hbs⟩ := ih hs₁ fun a ha => has a (by simp [ha])
    exact ⟨hs₂, List.forall_mem_cons.mpr ⟨hb, hbs⟩⟩

namespace Machine

variable {t : Target} {slots : List Slot} {P : Instruction → Prop}

/-! ## Simplification -/

theorem Source.traits_withKind (o : Operand) (s : Source) (h : ∃ reg, o.kind = .virtualReg reg) :
    (o.withKind s.kind).traits = o.traits := by
  obtain ⟨reg, hkind⟩ := h
  cases s <;> simp [Operand.traits, Operand.isPlace, Operand.isMemory, Operand.isStack,
    Operand.slot?, Operand.isGlobal, Operand.withKind, Source.kind, hkind]

theorem Renames.traits_applyOperand (rs : Renames) (o : Operand) :
    (rs.applyOperand o).traits = o.traits := by
  rw [applyOperand]
  split
  · next reg hkind => exact Source.traits_withKind o _ ⟨reg, hkind⟩
  · next base offset hkind =>
    simp [Operand.setReg, Operand.traits, Operand.isPlace, Operand.isMemory, Operand.isStack,
      Operand.slot?, Operand.isGlobal, Operand.withKind, hkind]
  · rfl

theorem Renames.shaped_apply (rs : Renames) {i : Instruction} (h : i.Shaped t slots) :
    (rs.apply i).Shaped t slots := by
  refine h.congr rfl rfl ?_
  simp [apply, Instruction.withOperands, Function.comp_def, rs.traits_applyOperand]

/-- Properties of renamings, of what is known and of instructions that each step of the walk over a
block keeps. -/
structure SimplifierKeeps (defs : List RegId) (R : Renames → Prop) (K : Known → Prop)
    (P : Instruction → Prop) : Prop where
  start : R {}
  unknown : K {}
  apply : ∀ {rs i}, R rs → P i → P (rs.apply i)
  insert : ∀ {rs k i entry}, R rs → K k → P i → k.redundant? defs i = some entry →
    R (rs.insert entry.1 entry.2)
  after : ∀ {k i}, K k → P i → K (k.after defs i)

namespace SimplifierKeeps

variable {R : Renames → Prop} {K : Known → Prop} {rs : Renames} {k : Known}

theorem simplifyFrom {defs : List RegId} (h : SimplifierKeeps defs R K P) {is : List Instruction}
    (hrs : R rs) (hk : K k) (his : ∀ i ∈ is, P i) :
    R (simplifyFrom defs k rs is).1 ∧ ∀ i ∈ (simplifyFrom defs k rs is).2, P i := by
  induction is generalizing k rs with
  | nil =>
    rw [Machine.simplifyFrom]
    exact ⟨hrs, by simp⟩
  | cons i is ih =>
    obtain ⟨hi, hrest⟩ := List.forall_mem_cons.mp his
    have hrenamed := h.apply hrs hi
    rw [Machine.simplifyFrom]
    dsimp only
    split
    · next hredundant => exact ih (h.insert hrs hk hrenamed hredundant) hk hrest
    · obtain ⟨hrenames, hcode⟩ := ih hrs (h.after hk hrenamed) hrest
      exact ⟨hrenames, List.forall_mem_cons.mpr ⟨hrenamed, hcode⟩⟩

/-- What the walk keeps holds of simplified code, to which all renamings are applied at the end. -/
theorem simplify {f : Function} (h : SimplifierKeeps f.definitions R K P) (hf : f.All P) :
    f.simplify.All P := by
  intro i hi
  rw [Function.simplify] at hi
  obtain ⟨b, hb, hi⟩ := Function.mem_instructions.mp hi
  obtain ⟨b', hb', rfl⟩ := List.mem_map.mp hb
  obtain ⟨j, hj, rfl⟩ := List.mem_map.mp hi
  have hwalk := mapAccum_keeps (I := R) (Q := fun b : Block => ∀ i ∈ b.instructions, P i)
    (fun rs (b : Block) => ((Machine.simplifyFrom f.definitions {} rs b.instructions).1,
      { b with instructions := (Machine.simplifyFrom f.definitions {} rs b.instructions).2 }))
    (fun rs b hrs hb => h.simplifyFrom hrs h.unknown hb) h.start
    fun b hb i hi => hf i (Function.mem_instructions.mpr ⟨b, hb, hi⟩)
  exact h.apply hwalk.1 (hwalk.2 b' hb' j hj)

end SimplifierKeeps

namespace Function

variable {f : Function}

theorem All.simplify (happly : ∀ (rs : Renames) i, P i → P (rs.apply i)) (h : f.All P) :
    f.simplify.All P :=
  have hkeeps : SimplifierKeeps f.definitions (fun _ => True) (fun _ => True) P :=
    ⟨trivial, trivial, fun _ => happly _ _, fun _ _ _ _ => trivial, fun _ _ => trivial⟩
  hkeeps.simplify h

theorem All.sweep (h : f.All P) : f.sweep.All P := by
  intro i hi
  obtain ⟨b, hb, hi⟩ := mem_instructions.mp hi
  obtain ⟨block, hblock, rfl⟩ := List.mem_map.mp hb
  exact h i (mem_instructions.mpr ⟨block, hblock, (List.mem_filter.mp hi).1⟩)

theorem All.dropDead (h : f.All P) : f.dropDead.All P := by
  induction f using Function.dropDead.induct with
  | case1 f hlt ih =>
    rw [Function.dropDead, if_pos hlt]
    exact ih h.sweep
  | case2 f hge =>
    rw [Function.dropDead, if_neg hge]
    exact h

theorem dropDead_eq (f : Function) : f.dropDead = { f with blocks := f.dropDead.blocks } := by
  induction f using Function.dropDead.induct with
  | case1 f hlt ih =>
    rw [Function.dropDead, if_pos hlt]
    exact ih
  | case2 f hge => rw [Function.dropDead, if_neg hge]

theorem optimize_eq (f : Function) : f.optimize = { f with blocks := f.optimize.blocks } :=
  f.simplify.dropDead_eq

theorem optimized_eq_ok {g : Function} :
    f.optimized = .ok g ↔ f.renames.isAcyclic ∧ g = f.optimize := by
  rw [optimized]
  split
  · next h => exact ⟨fun hg => ⟨h, (Except.ok.inj hg).symm⟩, fun hg => congrArg _ hg.2.symm⟩
  · next h => exact ⟨nofun, fun hg => absurd hg.1 h⟩

theorem frame_optimize (f : Function) : f.optimize.frame = f.frame := by
  rw [optimize_eq]

theorem All.optimize (h : f.All (·.Shaped t f.slots)) :
    f.optimize.All (·.Shaped t f.optimize.slots) := by
  rw [slots, frame_optimize]
  exact (h.simplify fun rs _ hi => rs.shaped_apply hi).dropDead

theorem All.yields_optimized (h : f.All (·.Shaped t f.slots)) :
    Yields (fun g => g.All (·.Shaped t g.slots)) f.optimized := by
  rw [optimized]
  split
  · exact .ok h.optimize
  · exact .error rfl

end Function

/-! ## Register classes -/

theorem Classes.kind_visitOperand (i : Instruction) (cs : Classes) (entry : Operand × Nat) :
    ((visitOperand t i cs entry).2).kind = entry.1.kind := by
  rw [visitOperand]
  dsimp only
  split
  · rfl
  · split <;> rfl

theorem Classes.traits_mapAccum (i : Instruction) (cs : Classes) (os : List (Operand × Nat)) :
    (mapAccum (visitOperand t i) cs os).2.map (·.traits) = os.map (·.1.traits) := by
  induction os generalizing cs with
  | nil => rfl
  | cons o os ih =>
    rw [mapAccum, List.map_cons, List.map_cons, ih]
    rw [Operand.traits_congr (kind_visitOperand i cs o)]

theorem Classes.shaped_visitInstruction (cs : Classes) {i : Instruction} (h : i.Shaped t slots) :
    ((visitInstruction t cs i).2).Shaped t slots := by
  refine h.congr rfl rfl ?_
  rw [visitInstruction]
  dsimp only [Instruction.withOperands]
  have hfst : i.operands.zipIdx.map Prod.fst = i.operands := List.zipIdx_map_fst 0 _
  have htraits := congrArg (List.map Operand.traits) hfst
  rw [List.map_map] at htraits
  rw [traits_mapAccum]
  exact htraits

theorem Function.All.selectClasses {f : Function} (h : f.All (·.Shaped t f.slots)) :
    (f.selectClasses t).All (·.Shaped t (f.selectClasses t).slots) := by
  intro i hi
  obtain ⟨b, hb, hi⟩ := mem_instructions.mp hi
  obtain ⟨cs, block, hblock, rfl⟩ := mem_mapAccum hb
  obtain ⟨cs', j, hj, rfl⟩ := mem_mapAccum hi
  exact Classes.shaped_visitInstruction cs' (h j (mem_instructions.mpr ⟨block, hblock, hj⟩))

end Machine

end Retarget
