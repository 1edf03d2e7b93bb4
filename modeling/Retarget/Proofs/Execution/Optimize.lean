import Retarget.Proofs.Execution.DeadCode
import Retarget.Proofs.Execution.Redundancy

/-!
# Optimized functions perform the same

The simplified function goes through the states of the function in single-assignment form, up to the
registers that are renamed (`simulates_simplify`).  So the optimized function performs the same
stores and calls and returns the same value (`refines_optimize`).
-/

namespace Retarget.Machine.Function

variable {M : Interpretation} {f : Function} {s t : State M} {i : Instruction} {o : Operand}
  {x : Point} {r : RegId}

theorem SingleAssignment.not_renamed (hf : f.SingleAssignment) (hx : f.Arrives x)
    (ho : o.Ready f x) (hr : (f.allRenames.applyOperand o).unallocated? = some r) :
    ¬ f.IsRenamed r := by
  rw [Renames.applyOperand] at hr
  split at hr
  · next r' hkind =>
    have hready : (Source.virtualReg r').Ready f x :=
      (Source.ready_of (by rw [Source.of?, hkind])).mpr ho
    rw [Source.unallocated?_withKind] at hr
    cases hr
    exact hf.resolve_not_renamed hx hready
  · next r' offset hkind =>
    have hready : (Source.virtualReg r').Ready f x :=
      ho.available (by rw [Operand.unallocated?, hkind])
    rw [Operand.setReg, hkind] at hr
    cases hr
    exact hf.resolve_not_renamed hx hready
  · next hvirtual hmemory =>
    rw [Operand.unallocated?] at hr
    rw [Operand.Ready] at ho
    split at hr
    · next hkind => exact absurd hkind (hvirtual _)
    · next hkind =>
      rw [hkind] at ho
      cases hr
      rintro ⟨source, hsource⟩
      obtain ⟨p, hp, -⟩ := hf.sound_allRenames _ hsource
      exact ho p hp
    · next hkind => exact absurd hkind (hmemory _ _)
    · cases hr

theorem SingleAssignment.lookup_eq_none (hf : f.SingleAssignment)
    (hkept : ∀ entry, ¬ f.Dropped x entry) (hr : f.Defines x r) :
    f.allRenames.entries.lookup r = none := by
  rw [List.lookup_eq_none_iff]
  intro entry hentry
  rw [bne_iff_ne]
  rintro rfl
  obtain ⟨p, hp⟩ := hf.renamedAt_of_mem hentry
  cases hf.unique hp.defines hr
  exact hkept entry hp.dropped

/-- What is left of the block is what the simplifier makes of what is left there. -/
def SimplifiedTo (f : Function) (s t : State M) : Prop :=
  f.Tracks s ∧ Agree (¬ f.IsRenamed ·) s t ∧
    f.simplify.rest t.block t.index = (f.remaining s.point).2.map f.allRenames.apply

theorem simulates_simplify (hf : f.SingleAssignment) (hM : M.Layout f.frame) :
    Simulates (M := M) f f.simplify f.SimplifiedTo fun s => (f.rest s.block s.index).length where
  trace h := h.2.1.trace
  move := by
    rintro s t m ⟨htracks, hagree, hrest⟩ hstep
    rw [hagree.block] at hrest
    have hsound := hf.soundAt s.point
    rcases step_cases hstep with ⟨i, op, args, e, hi, hexec, hperform⟩ | ⟨hnone, hlt, rfl⟩
    · cases hredundant :
        (f.knownAt s.point).redundant? f.definitions ((f.renamesAt s.point).apply i) with
      -- A dropped instruction changes a renamed register, which the other function does not have.
      | some entry =>
        have hdrop : f.Dropped s.point entry := ⟨i, hi, hredundant⟩
        obtain ⟨i', hi', hdest⟩ := (hsound.renamedAt hf hdrop).defines
        cases hi.symm.trans hi'
        obtain ⟨d, hd, hkind⟩ := Instruction.virtualDef?_eq_some.mp hdest
        obtain ⟨d', w, rfl, hd', -⟩ :=
          hexec.exists_assign (Instruction.isEffect_eq_false_of_def? hd)
        cases hd.symm.trans hd'
        have hrenamed : f.IsRenamed entry.1 := ⟨entry.2, hdrop.mem_all⟩
        obtain ⟨s', rfl, hagree', hblock, hindex⟩ :=
          hagree.of_assign hkind (fun h => h hrenamed) hperform
        refine .inr ⟨s', rfl, ⟨htracks.step hf hM hstep, hagree', ?_⟩, ?_⟩
        · rw [hagree.block, hrest, State.point, State.point, remaining_of_drop hdrop, hblock,
            hindex]
        · rw [hblock, hindex, rest_of_instruction? hi]
          simp
      -- A kept instruction was renamed when the walk came by and once more at its end.
      | none =>
        have hkept : ∀ entry, ¬ f.Dropped s.point entry := by
          rintro entry ⟨i', hi', hentry⟩
          cases hi.symm.trans hi'
          cases hredundant.symm.trans hentry
        rw [State.point, remaining_of_keep hi hredundant] at hrest
        have hi' : f.simplify.instruction? t.block t.index =
            some (f.allRenames.apply ((f.renamesAt s.point).apply i)) := by
          rw [hagree.block]
          exact instruction?_of_rest hrest
        have hexec' : Executes f.simplify t
            (f.allRenames.apply ((f.renamesAt s.point).apply i)) op args e := by
          refine (htracks.executes hf hi hexec hperform).rename hperform (fun r hr => ?_)
            (fun o ho a ha => ?_) hagree.memory
          · have hdef := (hsound.virtualDef?_apply hf hi).symm.trans hr
            exact hf.lookup_eq_none hkept ⟨i, hi, hdef⟩
          · have hready := hsound.ready_uses hf hi o ho
            rw [← Renames.eval_applyOperand hf htracks.renames (List.Subset.refl _) hready ha]
            exact hagree.eval (fun r hr => hf.not_renamed htracks.arrives hready hr) f.frame
        refine .inl (.of_agree hagree (blockIndex?_simplify f) hi' hexec' hperform ?_)
        rintro s' t' rfl hagree' halong
        refine ⟨htracks.step hf hM hstep, hagree', ?_⟩
        rw [hagree'.block, State.point]
        rcases halong with ⟨hb, hs, ht⟩ | ⟨hs, ht⟩
        · rw [hb, hs, ht, rest_succ, hrest]
          rfl
        · rw [hs, ht, rest_simplify]
    · rw [State.point, remaining_of_none hnone] at hrest
      refine .inl (.of_end hagree hrest ?_ fun hagree' => ⟨?_, hagree', rest_simplify f _⟩)
      · rwa [length_blocks_simplify]
      · exact htracks.step hf hM hstep

/-- **An optimized function performs the same.** -/
theorem refines_optimize (hf : f.SingleAssignment) (hM : M.Layout f.frame) (s : State M)
    (hs : s.point = (0, 0)) : f.Refines f.optimize s := by
  have hindex : s.index = 0 := congrArg Prod.snd hs
  have hstart : f.SimplifiedTo s s := by
    refine ⟨⟨?_, ?_, ?_⟩, ⟨rfl, fun _ _ => rfl, rfl, rfl, rfl⟩, ?_⟩
    · rw [hs]
      exact .entry
    · intro entry hentry p hp hdom
      rw [hs] at hdom
      exact absurd .entry hdom
    · rw [hs, knownAt_zero]
      exact .empty f s
    · have hblock : s.block = 0 := congrArg Prod.fst hs
      rw [hs, hblock, hindex, rest_simplify]
  exact ((simulates_simplify hf hM).refines hstart).trans
    (refines_dropDead f.simplify s hindex)

/-! ## A reload across blocks -/

/-- Stores a parameter to the frame, loads it again and returns it from another block. -/
def reload : Function :=
  let word := LowType.integer 32
  { name := "reload"
    blocks :=
      [⟨"entry", [.generic .store [.stack ⟨1⟩ 0 word, .parameter 0 word],
          .generic .load [.virtualReg 2 word, .stack ⟨1⟩ 0 word], .generic .jump [.label "exit"]]⟩,
        ⟨"exit", [.generic .ret [.virtualReg 2 word]]⟩]
    frame := ⟨[⟨⟨1⟩, 4⟩]⟩
    params := [⟨0, word, false, false⟩]
    nextId := 3 }

/-- Sixteen-bit addresses, a frame at address 64, and calls that do nothing. -/
def smallMachine : Interpretation where
  pointerBits := 16
  base _ := 64
  symbol _ := 0
  Physical := Unit
  readPhysical _ _ _ := none
  writePhysical p _ _ := p
  float _ _ _ _ := 0
  call _ _ memory physical := (memory, physical)

/-- The entry of a function with seven as its parameter. -/
def sevenState : State smallMachine where
  block := 0
  index := 0
  regs r := if r = 0 then some ⟨32, 7⟩ else none
  physical := ()
  memory _ := 0
  trace := []

theorem layout_reload : smallMachine.Layout reload.frame := by
  have hobject : ∀ slot size, reload.frame.objectSize? slot = some size →
      slot = ⟨1⟩ ∧ size = 4 := by
    intro slot size h
    simp only [reload, Frame.objectSize?, List.find?_cons] at h
    split at h
    · next hslot => exact ⟨(eq_of_beq hslot).symm, (Option.some.inj h).symm⟩
    · cases h
  refine ⟨fun slot size h => ?_, fun slot slot' size size' hne h h' => ?_⟩
  · rw [(hobject slot size h).2]
    decide
  · exact absurd ((hobject slot size h).1.trans (hobject slot' size' h').1.symm) hne

theorem defines_reload {p : Point} {r : RegId} (h : reload.Defines p r) : p = (0, 1) ∧ r = 2 := by
  obtain ⟨i, hi, hr⟩ := h
  obtain ⟨_ | _ | b, _ | _ | _ | k⟩ := p <;> cases hi <;> cases hr
  exact ⟨rfl, rfl⟩

theorem uses_reload {p : Point} (h : reload.Uses p 2) : p = (1, 0) := by
  obtain ⟨i, hi, huses⟩ := h
  obtain ⟨_ | _ | b, _ | _ | _ | k⟩ := p <;> cases hi
  · exact absurd huses (by decide)
  · exact absurd huses (by decide)
  · exact absurd huses (by decide)
  · rfl

theorem avoids_reload {x : Point} (h : reload.Avoids (0, 1) x) : x = (0, 0) ∨ x = (0, 1) := by
  induction h with
  | entry => exact .inl rfl
  | step _ hne hflow ih =>
    rcases ih with rfl | rfl
    · cases hflow with
      | next => exact .inr rfl
      | jump hi hname =>
        cases hi
        cases hname
      | fall hnone => cases hnone
    · exact absurd rfl hne

theorem singleAssignment_reload : reload.SingleAssignment where
  unique hp hq := (defines_reload hp).1.trans (defines_reload hq).1.symm
  dominated hp hq := by
    obtain ⟨rfl, rfl⟩ := defines_reload hp
    cases uses_reload hq
    intro havoids
    rcases avoids_reload havoids with h | h <;> cases h
  parameters hp := by
    obtain ⟨-, rfl⟩ := defines_reload hp
    decide

theorem performs_reload :
    reload.Performs sevenState [.store 64 ⟨32, 7⟩] (some (some ⟨32, 7⟩)) := by
  have hstart : reload.Reaches sevenState sevenState := .refl
  refine ⟨_, ((hstart.step rfl).step rfl).step rfl, rfl, ?_⟩
  rintro v ⟨⟩
  rfl

theorem performs_optimize_reload : reload.simplify ≠ reload ∧
    reload.optimize.Performs sevenState [.store 64 ⟨32, 7⟩] (some (some ⟨32, 7⟩)) :=
  ⟨by decide, (refines_optimize singleAssignment_reload layout_reload sevenState rfl).keeps _ _
    performs_reload⟩

end Retarget.Machine.Function
