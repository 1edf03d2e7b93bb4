import Retarget.Proofs.Execution.Availability

/-!
# Renamed instructions do the same

A renamed register can be read from its source once it is defined (`RenamesHold`), so a renamed
operand reads what the operand reads (`eval_applyOperand`), and a renamed instruction has the same
effect (`Executes.rename`).  A step leaves the registers that are available (`regs_of_step`).
-/

namespace Retarget.Machine

variable {M : Interpretation} {f g : Function} {s s' t : State M} {i : Instruction}
  {rs : Renames} {source : Source} {o : Operand} {r : RegId}
  {op : GenericOp} {args : List (Arg M.pointerBits)} {e : Effect M}

/-! ## Registers -/

/-- Whatever can be read from the one can be read from the other. -/
def Serves (c c' : Option Bits) : Prop :=
  ∀ width v, c.bind (·.read? width) = some v → c'.bind (·.read? width) = some v

theorem Bits.read?_eq_some {c : Bits} {width : Nat} {v : BitVec width} :
    c.read? width = some v ↔ width ≤ c.width ∧ c.value.setWidth width = v := by
  simp [Bits.read?]

theorem serves_of_read {c : Option Bits} {width : Nat} {v : BitVec width}
    (h : c.bind (·.read? width) = some v) : Serves (some ⟨width, v⟩) c := by
  intro width' u hu
  obtain ⟨c, rfl, h⟩ := Option.bind_eq_some_iff.mp h
  obtain ⟨hwidth, rfl⟩ := Bits.read?_eq_some.mp h
  obtain ⟨hwidth', rfl⟩ := Bits.read?_eq_some.mp hu
  refine Bits.read?_eq_some.mpr ⟨Nat.le_trans hwidth' hwidth, ?_⟩
  exact (BitVec.setWidth_setWidth_of_le c.value hwidth').symm

theorem Source.eval_of {o : Operand} (h : Source.of? o = some source) (frame : Frame) :
    o.eval frame s =
      ((s.regs source.id).bind (·.read? o.size)).map fun v => .bits ⟨o.size, v⟩ := by
  rw [Source.of?] at h
  split at h
  · next hkind =>
    cases h
    rw [Operand.eval, hkind]
    rfl
  · next hkind =>
    cases h
    rw [Operand.eval, hkind]
    rfl
  · cases h

namespace Function

/-- A renamed register can be read from its source once it is defined. -/
def RenamesHold (f : Function) (s : State M) : Prop :=
  ∀ entry ∈ f.allRenames.entries, ∀ p, f.Defines p entry.1 → f.Dominates p s.point →
    Serves (s.regs entry.1) (s.regs entry.2.id)

theorem regs_of_step (hstep : f.step s = some (.go s')) (hs : f.Arrives s.point)
    (hr : f.Available s.point r) : s'.regs r = s.regs r := by
  rcases step_cases hstep with ⟨i, op, args, e, hi, hexec, hperform⟩ | ⟨-, -, hm⟩
  · cases hexec.cases with
    | @assign d w hdest =>
      rcases State.perform_assign hperform with ⟨r', hkind, hm⟩ | ⟨r', -, hm⟩
      · cases hm
        refine if_neg ?_
        rintro rfl
        have hdefines : f.Defines s.point r :=
          ⟨i, hi, Instruction.virtualDef?_eq_some.mpr ⟨d, hdest, hkind⟩⟩
        exact hs.not_dominates_self (hr _ hdefines)
      · cases hm
        rfl
    | store =>
      cases hperform
      rfl
    | jump =>
      obtain ⟨b, -, hm⟩ := Option.map_eq_some_iff.mp hperform
      cases hm
      rfl
    | skip =>
      cases hperform
      rfl
    | call =>
      cases hperform
      rfl
    | stop => cases hperform
  · cases hm
    rfl

theorem eval_of_step (hstep : f.step s = some (.go s')) (hs : f.Arrives s.point)
    (ho : o.Ready f s.point) (hphysical : o.isPhysical = false) (frame : Frame) :
    o.eval frame s' = o.eval frame s :=
  o.eval_congr (fun _ hr => regs_of_step hstep hs (ho.available hr)) (by simp [hphysical]) frame

end Function

theorem Operand.isPhysical_of_isStable {defs : List RegId} (h : o.isStable defs = true) :
    o.isPhysical = false := by
  rw [Operand.isStable] at h
  rw [Operand.isPhysical]
  split at h <;> simp_all

theorem Operand.isPhysical_of_source (h : (Source.of? o).isSome) : o.isPhysical = false := by
  rw [Source.of?] at h
  rw [Operand.isPhysical]
  split at h <;> simp_all

theorem Source.unallocated?_withKind (o : Operand) (source : Source) :
    (o.withKind source.kind).unallocated? = some source.id := by
  cases source <;> rfl

theorem Source.of?_withKind (o : Operand) (source : Source) :
    Source.of? (o.withKind source.kind) = some source := by
  cases source <;> rfl

/-! ## Renamed instructions -/

theorem Renames.serves_follow (hf : f.SingleAssignment) (hrenames : f.RenamesHold s)
    (hsub : rs.entries ⊆ f.allRenames.entries) (hsource : source.Ready f s.point) (n : Nat) :
    Serves (s.regs source.id) (s.regs (rs.follow n source).id) := by
  induction n generalizing source with
  | zero =>
    rw [follow_zero]
    exact fun _ _ h => h
  | succ n ih =>
    cases source with
    | parameter r => exact fun _ _ h => h
    | virtualReg r =>
      rw [follow]
      split
      · next next hnext =>
        have hmem := hsub (mem_of_lookup_eq_some hnext)
        obtain ⟨p, hp⟩ := hf.renamedAt_of_mem hmem
        have hdom := hsource p hp.defines
        intro width v hread
        exact ih (hp.ready.of_dominates hdom) width v
          (hrenames _ hmem p hp.defines hdom width v hread)
      · exact fun _ _ h => h

theorem Renames.eval_applyOperand (hf : f.SingleAssignment) (hrenames : f.RenamesHold s)
    (hsub : rs.entries ⊆ f.allRenames.entries) (ho : o.Ready f s.point) {frame : Frame}
    {a : Arg M.pointerBits} (heval : o.eval frame s = some a) :
    (rs.applyOperand o).eval frame s = some a := by
  rw [applyOperand]
  split
  · next r hkind =>
    have hof : Source.of? o = some (.virtualReg r) := by rw [Source.of?, hkind]
    have hserves := serves_follow hf hrenames hsub ((Source.ready_of hof).mpr ho) rs.entries.length
    rw [Source.eval_of hof] at heval
    obtain ⟨v, hv, rfl⟩ := Option.map_eq_some_iff.mp heval
    rw [Source.eval_of (Source.of?_withKind o _)]
    exact Option.map_eq_some_iff.mpr ⟨v, hserves _ _ hv, rfl⟩
  · next r offset hkind =>
    have hready : (Source.virtualReg r).Ready f s.point :=
      ho.available (by rw [Operand.unallocated?, hkind])
    have hserves := serves_follow hf hrenames hsub hready rs.entries.length
    rw [Operand.eval, hkind] at heval
    obtain ⟨a', ha', rfl⟩ := Option.map_eq_some_iff.mp heval
    rw [Operand.setReg, hkind]
    exact Option.map_eq_some_iff.mpr ⟨a', hserves _ _ ha', rfl⟩
  · exact heval

/-- A renamed instruction has the same effect if its definition is not renamed and its operands read
the same. -/
theorem Executes.rename {m : Move M} (hexec : Executes f s i op args e)
    (hperform : s.perform f e = some m)
    (hdef : ∀ r, i.virtualDef? = some r → rs.entries.lookup r = none)
    (huses : ∀ o ∈ i.uses, ∀ a, o.eval f.frame s = some a →
      (rs.applyOperand o).eval g.frame t = some a)
    (hmemory : t.memory = s.memory) : Executes g t (rs.apply i) op args e := by
  refine hexec.transfer rfl rfl rfl ?_ hmemory ?_
  · rw [Instruction.def?_apply]
    cases hd : i.def? with
    | none => rfl
    | some d =>
      obtain ⟨d', w, rfl, hd', -⟩ :=
        hexec.exists_assign (Instruction.isEffect_eq_false_of_def? hd)
      cases hd.symm.trans hd'
      rcases State.perform_assign hperform with ⟨r, hkind, -⟩ | ⟨r, hkind, -⟩
      · have hr := hdef r (Instruction.virtualDef?_eq_some.mpr ⟨d, hd, hkind⟩)
        rw [Option.map_some, Renames.applyOperand_eq_self hkind hr]
      · rw [Option.map_some, Renames.applyOperand, hkind]
  · rw [Instruction.uses_apply]
    exact mapM_map_of_eq_some huses hexec.evaluates

end Retarget.Machine
