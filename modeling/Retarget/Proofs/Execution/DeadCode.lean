import Retarget.Proofs.Execution.Refinement

/-!
# Dead definitions

A definition that nobody reads only changes a register that nobody reads, so the function without it
goes through the same states up to such registers (`simulates_sweep`).  Sweeping until nothing is
left to drop is a refinement (`refines_dropDead`).
-/

namespace Retarget.Machine.Function

variable {M : Interpretation} {f : Function} {s t : State M} {i : Instruction}

theorem mem_reads {b k : Nat} {o : Operand} {r : RegId} (hi : f.instruction? b k = some i)
    (ho : o ∈ i.uses) (hr : o.unallocated? = some r) : r ∈ f.reads := by
  refine List.mem_flatMap.mpr ⟨i, mem_of_instruction? hi, ?_⟩
  refine List.mem_filterMap.mpr ⟨o, ?_, hr⟩
  rw [Instruction.uses] at ho
  split
  · next hread => rwa [if_pos (Bool.and_eq_true_iff.mp hread).1] at ho
  · split at ho
    · exact List.mem_of_mem_tail ho
    · exact ho

/-- A dead instruction defines a virtual register that is not read, and does nothing else. -/
theorem exists_of_isDead {reads : List RegId} (h : isDead reads i = true) :
    i.isEffect = false ∧ ∃ d r, i.def? = some d ∧ d.kind = .virtualReg r ∧ r ∉ reads := by
  obtain ⟨hplain, hdef⟩ := Bool.and_eq_true_iff.mp h
  refine ⟨by simpa using (Bool.and_eq_true_iff.mp hplain).2, ?_⟩
  obtain ⟨r, hr, hread⟩ := (Option.any_eq_true _ _).mp hdef
  obtain ⟨d, hd, hkind⟩ := Instruction.virtualDef?_eq_some.mp hr
  exact ⟨d, r, hd, hkind, by simpa using hread⟩

theorem rest_sweep (f : Function) (b : Nat) :
    f.sweep.rest b 0 = (f.rest b 0).filter fun i => !isDead f.reads i := by
  rw [rest, rest, sweep]
  dsimp only
  rw [List.getElem?_map]
  cases f.blocks[b]? <;> rfl

theorem blockIndex?_sweep (f : Function) : f.sweep.blockIndex? = f.blockIndex? := by
  funext name
  rw [blockIndex?, blockIndex?, sweep]
  dsimp only
  rw [List.findIdx?_map]
  rfl

/-- The remaining instructions are those of the other function without the dead ones. -/
def SweptTo (f : Function) (s t : State M) : Prop :=
  Agree (· ∈ f.reads) s t ∧
    f.sweep.rest t.block t.index =
      (f.rest s.block s.index).filter fun i => !isDead f.reads i

theorem simulates_sweep (f : Function) :
    Simulates (M := M) f f.sweep f.SweptTo fun s => (f.rest s.block s.index).length where
  trace h := h.1.trace
  move := by
    rintro s t m ⟨hagree, hrest⟩ hstep
    rcases step_cases hstep with ⟨i, op, args, e, hi, hexec, hperform⟩ | ⟨hnone, hlt, rfl⟩
    · rw [hagree.block, rest_of_instruction? hi] at hrest
      by_cases hdead : isDead f.reads i = true
      · obtain ⟨hplain, d, r, hd, hkind, hr⟩ := exists_of_isDead hdead
        obtain ⟨d', w, rfl, hd', -⟩ := hexec.exists_assign hplain
        cases hd.symm.trans hd'
        obtain ⟨s', rfl, hagree', hblock, hindex⟩ := hagree.of_assign hkind hr hperform
        refine .inr ⟨s', rfl, ⟨hagree', ?_⟩, ?_⟩
        · rw [hagree.block, hrest, hblock, hindex, List.filter_cons_of_neg (by simp [hdead])]
        · rw [hblock, hindex, rest_of_instruction? hi]
          simp
      · rw [List.filter_cons_of_pos (by simp [hdead])] at hrest
        have hargs : i.uses.mapM (·.eval f.sweep.frame t) = some args :=
          mapM_of_eq (fun o ho => hagree.eval (fun r hr => mem_reads hi ho hr) f.frame)
            hexec.evaluates
        have hexec' : Executes f.sweep t i op args e :=
          hexec.transfer rfl rfl rfl rfl hagree.memory hargs
        have hi' : f.sweep.instruction? t.block t.index = some i := by
          rw [hagree.block]
          exact instruction?_of_rest hrest
        refine .inl (.of_agree hagree (blockIndex?_sweep f) hi' hexec' hperform ?_)
        rintro s' t' - hagree' halong
        refine ⟨hagree', ?_⟩
        rcases halong with ⟨hb, hs, ht⟩ | ⟨hs, ht⟩
        · rw [hagree'.block, hb, hs, ht, rest_succ, hrest]
          rfl
        · rw [hagree'.block, hs, ht, rest_sweep]
    · rw [hagree.block, rest_of_none hnone] at hrest
      refine .inl (.of_end hagree hrest ?_ fun hagree' => ⟨hagree', rest_sweep f _⟩)
      simpa [sweep] using hlt

/-- **Dropping dead definitions is a refinement.** -/
theorem refines_dropDead (f : Function) (s : State M) (hs : s.index = 0) :
    f.Refines f.dropDead s := by
  induction f using Function.dropDead.induct with
  | case1 f hlt ih =>
    rw [dropDead, if_pos hlt]
    refine Refines.trans ((simulates_sweep f).refines ⟨⟨rfl, ?_, rfl, rfl, rfl⟩, ?_⟩) ih
    · exact fun _ _ => rfl
    · rw [hs, rest_sweep]
  | case2 f hge =>
    rw [dropDead, if_neg hge]
    exact .refl f s

end Retarget.Machine.Function
