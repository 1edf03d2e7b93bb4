import Retarget.Proofs.Execution.Renaming

/-!
# What the simplifier knows is true

In a run of a function in single-assignment form, the values that are known at a point are in their
registers (`Known.Holds`): a step leaves the registers that are available, and a store to the frame
stays inside its object (`Layout`).  So what is known and what is renamed stays true along the run
(`Tracks.step`).
-/

namespace Retarget.Machine

variable {M : Interpretation} {f : Function} {s s' : State M} {i : Instruction} {o : Operand}
  {op : GenericOp} {args : List (Arg M.pointerBits)} {e : Effect M} {place : Slot × Int}

/-! ## The frame -/

/-- Frame objects fit into memory and have no byte in common. -/
structure Interpretation.Layout (M : Interpretation) (frame : Frame) : Prop where
  fits : ∀ slot size, frame.objectSize? slot = some size → size ≤ 2 ^ M.pointerBits
  apart : ∀ slot slot' size size', slot ≠ slot' → frame.objectSize? slot = some size →
    frame.objectSize? slot' = some size' → ∀ a, Memory.Within (M.base slot) size a →
    ¬ Memory.Within (M.base slot') size' a

namespace Interpretation.Layout

variable {frame : Frame} {room width : Nat}

theorem within_object (hroom : frame.room? place = some room) (hwidth : byteCount width ≤ room) :
    ∃ size, frame.objectSize? place.1 = some size ∧ byteCount width ≤ size ∧
      ∀ a, Memory.Within (M.address place) (byteCount width) a →
        Memory.Within (M.base place.1) size a := by
  obtain ⟨size, hsize, rfl⟩ := Option.map_eq_some_iff.mp hroom
  refine ⟨size, hsize, by split at hwidth <;> omega, ?_⟩
  rintro a ⟨n, hn, rfl⟩
  split at hwidth
  · next hpos =>
    refine ⟨place.2.toNat + n, by omega, ?_⟩
    have hoffset : BitVec.ofInt M.pointerBits place.2 =
        BitVec.ofNat M.pointerBits place.2.toNat := by
      rw [← BitVec.ofInt_natCast, Int.toNat_of_nonneg hpos]
    rw [Interpretation.address, hoffset, BitVec.ofNat_add, BitVec.add_assoc]
  · omega

theorem byteCount_le (hM : M.Layout frame) (hroom : frame.room? place = some room)
    (hwidth : byteCount width ≤ room) : byteCount width ≤ 2 ^ M.pointerBits := by
  obtain ⟨size, hsize, hle, -⟩ := within_object (M := M) hroom hwidth
  exact Nat.le_trans hle (hM.fits place.1 size hsize)

theorem loadBits_storeBits_of_ne (hM : M.Layout frame) {place' : Slot × Int} {room' width' : Nat}
    (hne : place.1 ≠ place'.1) (hroom : frame.room? place = some room)
    (hwidth : byteCount width ≤ room) (hroom' : frame.room? place' = some room')
    (hwidth' : byteCount width' ≤ room') (m : Memory M.pointerBits) (v : BitVec width') :
    (m.storeBits (M.address place') v).loadBits (M.address place) width =
      m.loadBits (M.address place) width := by
  obtain ⟨size, hsize, -, hwithin⟩ := within_object (M := M) hroom hwidth
  obtain ⟨size', hsize', -, hwithin'⟩ := within_object (M := M) hroom' hwidth'
  refine Memory.loadBits_of_apart m v fun a ha ha' => ?_
  exact hM.apart _ _ _ _ hne hsize hsize' a (hwithin a ha) (hwithin' a ha')

end Interpretation.Layout

theorem Operand.eval_of_frameByte? (ho : o.frameByte? = some place) (frame : Frame) :
    o.eval frame s =
      (frame.room? place).map fun room => .place (M.address place) (some room) := by
  rw [Operand.frameByte?] at ho
  split at ho
  · next slot offset hkind =>
    cases ho
    rw [Operand.eval, hkind]
  · cases ho

/-! ## Known values -/

/-- The register holds what the expression computes. -/
def Computed (f : Function) (s : State M) (entry : Expression × Source) : Prop :=
  ∃ op args w, entry.1.opcode = .generic op ∧ op.isPure = true ∧
    entry.1.uses.mapM (·.eval f.frame s) = some args ∧
    compute M op entry.1.relation entry.1.ty.bits args = some w ∧
    s.regs entry.2.id = some ⟨entry.1.ty.bits, w⟩

/-- The frame holds at a place what the operand reads. -/
def Stored (f : Function) (s : State M) (entry : (Slot × Int) × Operand) : Prop :=
  ∃ room w, f.frame.room? entry.1 = some room ∧ byteCount entry.2.size ≤ room ∧
    entry.2.eval f.frame s = some (.bits ⟨entry.2.size, w⟩) ∧
    s.memory.loadBits (M.address entry.1) entry.2.size = w

/-- What is known is true. -/
structure Known.Holds (f : Function) (s : State M) (kn : Known) : Prop where
  expressions : ∀ entry ∈ kn.expressions, Computed f s entry
  slots : ∀ entry ∈ kn.slots, Stored f s entry

theorem Known.Holds.empty (f : Function) (s : State M) : Known.Holds f s {} := ⟨by simp, by simp⟩

theorem Computed.step {entry : Expression × Source} (h : Computed f s entry)
    (hsource : entry.2.Ready f s.point)
    (huses : ∀ o ∈ entry.1.uses, o.Ready f s.point ∧ o.isStable f.definitions = true)
    (hs : f.Arrives s.point) (hstep : f.step s = some (.go s')) : Computed f s' entry := by
  obtain ⟨op, args, w, hop, hpure, hargs, hw, hreg⟩ := h
  refine ⟨op, args, w, hop, hpure, ?_, hw, ?_⟩
  · refine mapM_of_eq (fun o ho => ?_) hargs
    exact Function.eval_of_step hstep hs (huses o ho).1
      (Operand.isPhysical_of_isStable (huses o ho).2) f.frame
  · rw [Function.regs_of_step hstep hs hsource.available, hreg]

theorem Stored.step {entry : (Slot × Int) × Operand} (h : Stored f s entry)
    (hready : entry.2.Ready f s.point) (hsource : (Source.of? entry.2).isSome)
    (hs : f.Arrives s.point) (hstep : f.step s = some (.go s'))
    (hmemory : ∀ room, f.frame.room? entry.1 = some room → byteCount entry.2.size ≤ room →
      s'.memory.loadBits (M.address entry.1) entry.2.size =
        s.memory.loadBits (M.address entry.1) entry.2.size) : Stored f s' entry := by
  obtain ⟨room, w, hroom, hwidth, heval, hload⟩ := h
  refine ⟨room, w, hroom, hwidth, ?_, ?_⟩
  · rw [Function.eval_of_step hstep hs hready (Operand.isPhysical_of_source hsource), heval]
  · rw [hmemory room hroom hwidth, hload]

theorem Known.Holds.step {kn : Known} (h : kn.Holds f s) (hready : kn.Ready f s.point)
    (hs : f.Arrives s.point) (hstep : f.step s = some (.go s')) (hmemory : s'.memory = s.memory) :
    kn.Holds f s' := by
  refine ⟨fun entry hentry => ?_, fun entry hentry => ?_⟩
  · obtain ⟨hsource, huses⟩ := hready.expressions entry hentry
    exact (h.expressions entry hentry).step hsource huses hs hstep
  · obtain ⟨hvalue, hsource⟩ := hready.slots entry hentry
    exact (h.slots entry hentry).step hvalue hsource hs hstep fun _ _ _ => by rw [hmemory]

theorem produce_of_isPure (h : op.isPure = true) (relation : Option Relation) (width : Nat)
    (memory : Memory M.pointerBits) (args : List (Arg M.pointerBits)) :
    produce op relation width memory args = compute M op relation width args := by
  cases op <;> first | rfl | cases h

theorem produce_load {relation : Option Relation} {width : Nat} {memory : Memory M.pointerBits}
    {w : BitVec width} (h : produce .load relation width memory args = some w) :
    ∃ address room, args = [.place address room] ∧ memory.loadBits address width = w := by
  unfold produce at h
  split at h
  · next address room _ =>
    split at h
    · cases h
      exact ⟨address, room, rfl, rfl⟩
    · cases h
  · next hop => cases hop
  · cases h

theorem Instruction.operands_of_def? {d : Operand} (h : i.def? = some d) :
    i.operands = d :: i.uses := by
  rw [Instruction.def?] at h
  rw [Instruction.uses]
  split at h
  · next hdef =>
    rw [if_pos hdef]
    exact (List.cons_head?_tail h).symm
  · cases h

namespace Executes

theorem exists_of_virtualDef? {r : RegId} (hexec : Executes f s i op args e)
    (hr : i.virtualDef? = some r) (hperform : s.perform f e = some (.go s')) :
    ∃ d w, i.def? = some d ∧ produce op i.relation d.size s.memory args = some w ∧
      s'.regs r = some ⟨d.size, w⟩ ∧ s'.memory = s.memory := by
  obtain ⟨d, hd, hkind⟩ := Instruction.virtualDef?_eq_some.mp hr
  obtain ⟨d', w, rfl, hd', hw⟩ := hexec.exists_assign (Instruction.isEffect_eq_false_of_def? hd)
  cases hd.symm.trans hd'
  rcases State.perform_assign hperform with ⟨r', hkind', hm⟩ | ⟨r', hkind', -⟩
  · cases hm
    cases hkind.symm.trans hkind'
    exact ⟨d, w, hd, hw, if_pos rfl, rfl⟩
  · cases hkind.symm.trans hkind'

/-- What a redundant instruction computes can be read from the register that is known for it. -/
theorem serves {defs : List RegId} {kn : Known} {r : RegId} {source : Source} {d : Operand}
    {w : BitVec d.size} (hexec : Executes f s i op args e) (hknown : kn.Holds f s)
    (hredundant : kn.redundant? defs i = some (r, source)) (hd : i.def? = some d)
    (hw : produce op i.relation d.size s.memory args = some w) :
    Serves (some ⟨d.size, w⟩) (s.regs source.id) := by
  have hoperands := Instruction.operands_of_def? hd
  rcases (Known.redundant?_cases hredundant).2 with
    ⟨hload, place, value, hplace, hmem, hty, hsource⟩ | ⟨op', d', hop, hpure, hd', hmem⟩
  · have hop : op = .load := by
      have hgeneric := hexec.isGeneric .load
      rw [hload] at hgeneric
      exact eq_of_beq hgeneric.symm
    subst hop
    obtain ⟨address, room, rfl, hloaded⟩ := produce_load hw
    obtain ⟨u, us, huses, hu, -⟩ := exists_of_mapM_eq_cons hexec.evaluates
    rw [Instruction.operand?, hoperands, huses] at hplace
    rw [Instruction.operand?, hoperands] at hty
    rw [Operand.eval_of_frameByte? hplace] at hu
    obtain ⟨room', -, haddress⟩ := Option.map_eq_some_iff.mp hu
    cases haddress
    obtain ⟨-, w', -, -, heval, hw'⟩ := hknown.slots _ hmem
    have hsize : d.size = value.size := congrArg LowType.bits (Option.some.inj hty)
    have hsame : (⟨d.size, w⟩ : Bits) = ⟨value.size, w'⟩ := by
      rw [← hloaded, ← hw', hsize]
    rw [hsame]
    rw [Source.eval_of hsource] at heval
    obtain ⟨v, hv, hbits⟩ := Option.map_eq_some_iff.mp heval
    cases hbits
    exact serves_of_read hv
  · cases hd.symm.trans hd'
    cases hexec.generic.symm.trans hop
    obtain ⟨op'', args', w', hop', -, hargs', hw', hreg⟩ := hknown.expressions _ hmem
    have hgeneric : i.generic? = some op'' := congrArg Opcode.generic? hop'
    cases hexec.generic.symm.trans hgeneric
    cases hexec.evaluates.symm.trans hargs'
    rw [produce_of_isPure hpure] at hw
    cases hw.symm.trans hw'
    rw [hreg]
    exact fun _ _ hread => hread

theorem exists_store (hexec : Executes f s i op args e) (hstore : i.isStore = true) :
    ∃ address room a value o₀ o₁, e = .store address value ∧ i.operands = [o₀, o₁] ∧
      o₀.eval f.frame s = some (.place address room) ∧ o₁.eval f.frame s = some a ∧
      a.toBits M = some value ∧ hasRoom room value.width = true := by
  have heffect : i.isEffect = true := by simp [Instruction.isEffect, hstore]
  rw [hexec.isStore] at hstore
  cases hexec.cases with
  | assign hdest => simp [Instruction.isEffect_eq_false_of_def? hdest] at heffect
  | @store address room a value hop hargs hbits hroom =>
    have hevaluates := hexec.evaluates
    rw [hargs, Instruction.uses_of_isEffect heffect] at hevaluates
    obtain ⟨o₀, os, hos, h₀, hevaluates⟩ := exists_of_mapM_eq_cons hevaluates
    obtain ⟨o₁, os', rfl, h₁, hevaluates⟩ := exists_of_mapM_eq_cons hevaluates
    have hlength := length_of_mapM_eq_some hevaluates
    rw [List.eq_nil_of_length_eq_zero hlength.symm] at hos
    exact ⟨address, room, a, value, o₀, o₁, rfl, hos, h₀, h₁, hbits, hroom⟩
  | jump hop => rcases hop with rfl | rfl <;> cases hstore
  | skip hop =>
    subst hop
    cases hstore
  | call hop =>
    subst hop
    cases hstore
  | stop hop =>
    subst hop
    cases hstore

theorem memory_eq (hexec : Executes f s i op args e) (hperform : s.perform f e = some (.go s'))
    (hstore : i.isStore = false) (hcall : i.isCall = false) : s'.memory = s.memory := by
  rw [hexec.isStore] at hstore
  rw [hexec.isCall] at hcall
  cases hexec.cases with
  | assign =>
    rcases State.perform_assign hperform with ⟨r, -, hm⟩ | ⟨r, -, hm⟩ <;> cases hm <;> rfl
  | store hop =>
    subst hop
    cases hstore
  | jump =>
    obtain ⟨b, -, hm⟩ := Option.map_eq_some_iff.mp hperform
    cases hm
    rfl
  | skip =>
    cases hperform
    rfl
  | call hop =>
    subst hop
    cases hcall
  | stop => cases hperform

end Executes

/-! ## Along a run -/

section After

variable {kn : Known} (hs : f.Arrives s.point) (hready : kn.Ready f s.point)
  (hknown : kn.Holds f s) (hstep : f.step s = some (.go s')) (hexec : Executes f s i op args e)
  (hperform : s.perform f e = some (.go s'))

include hs hstep hexec hperform

theorem Computed.of_executes {entry : Expression × Source} {dest : RegId}
    (huses : ∀ o ∈ i.uses, o.Ready f s.point)
    (hexpr : Known.expression? f.definitions i = some (dest, entry.1))
    (hsource : entry.2 = .virtualReg dest) : Computed f s' entry := by
  obtain ⟨hdest, op', d, hop, hpure, hd, hstable, he⟩ := Known.expression?_eq_some hexpr
  cases hexec.generic.symm.trans hop
  obtain ⟨d', w, hd', hw, hreg, -⟩ := hexec.exists_of_virtualDef? hdest hperform
  cases hd.symm.trans hd'
  rw [produce_of_isPure hpure] at hw
  rw [Computed, he, hsource]
  refine ⟨op, args, w, hexec.opcode_eq, hpure, ?_, hw, hreg⟩
  refine mapM_of_eq (fun o ho => ?_) hexec.evaluates
  exact Function.eval_of_step hstep hs (huses o ho)
    (Operand.isPhysical_of_isStable (hstable o ho)) f.frame

theorem Stored.of_executes (hM : M.Layout f.frame) {entry : (Slot × Int) × Operand}
    (huses : ∀ o ∈ i.uses, o.Ready f s.point) (hstore : i.isStore = true)
    (hplace : (i.operand? 0).bind (·.frameByte?) = some entry.1)
    (hvalue : i.operand? 1 = some entry.2) (hsource : (Source.of? entry.2).isSome) :
    Stored f s' entry := by
  obtain ⟨address, room, a, value, o₀, o₁, rfl, hoperands, h₀, h₁, hbits, hroom⟩ :=
    hexec.exists_store hstore
  rw [Instruction.operand?, hoperands] at hplace hvalue
  cases hvalue
  rw [Operand.eval_of_frameByte? hplace] at h₀
  obtain ⟨room', hroom', haddress⟩ := Option.map_eq_some_iff.mp h₀
  cases haddress
  obtain ⟨source, hof⟩ := Option.isSome_iff_exists.mp hsource
  have h₁' := h₁
  rw [Source.eval_of hof] at h₁'
  obtain ⟨w, hw, ha⟩ := Option.map_eq_some_iff.mp h₁'
  subst ha
  cases hbits
  have hwidth : byteCount entry.2.size ≤ room' := by simpa [hasRoom] using hroom
  cases hperform
  refine ⟨room', w, hroom', hwidth, ?_, ?_⟩
  · rw [← h₁]
    refine Function.eval_of_step hstep hs (huses _ ?_) (Operand.isPhysical_of_source hsource) _
    rw [Instruction.uses_of_isEffect (by simp [Instruction.isEffect, hstore]), hoperands]
    simp
  · exact Memory.loadBits_storeBits s.memory _ w (hM.byteCount_le hroom' hwidth)

include hready hknown

/-- An instruction that stays leaves what is known after it true. -/
theorem Known.Holds.after (hM : M.Layout f.frame) (huses : ∀ o ∈ i.uses, o.Ready f s.point) :
    (kn.after f.definitions i).Holds f s' := by
  refine ⟨fun entry hentry => ?_, fun entry hentry => ?_⟩
  · rcases mem_expressions_after hentry with hold | ⟨dest, hexpr, hsource⟩
    · obtain ⟨hsource, hstable⟩ := hready.expressions entry hold
      exact (hknown.expressions entry hold).step hsource hstable hs hstep
    · exact .of_executes hs hstep hexec hperform huses hexpr hsource
  · obtain ⟨hcall, hcases⟩ := mem_slots_after hentry
    rcases hcases with ⟨hold, hother⟩ | ⟨hstore, hplace, hvalue, hsource⟩
    · obtain ⟨hvalue, hsource⟩ := hready.slots entry hold
      refine (hknown.slots entry hold).step hvalue hsource hs hstep fun room hroom hwidth => ?_
      cases hstore : i.isStore with
      | false => rw [hexec.memory_eq hperform hstore hcall]
      | true =>
        obtain ⟨place, hplace, hne⟩ := hother hstore
        obtain ⟨address, room', a, value, o₀, o₁, rfl, hoperands, h₀, -, -, hroom'⟩ :=
          hexec.exists_store hstore
        rw [Instruction.operand?, hoperands] at hplace
        rw [Operand.eval_of_frameByte? hplace] at h₀
        obtain ⟨room₀, hroom₀, haddress⟩ := Option.map_eq_some_iff.mp h₀
        cases haddress
        cases hperform
        exact hM.loadBits_storeBits_of_ne hne hroom hwidth hroom₀ (by simpa [hasRoom] using hroom')
          s.memory value.value
    · exact .of_executes hs hstep hexec hperform hM huses hstore hplace hvalue hsource

end After

namespace Function

/-- At the state, what is known is true and renamed registers can be read from their sources. -/
structure Tracks (f : Function) (s : State M) : Prop where
  arrives : f.Arrives s.point
  renames : f.RenamesHold s
  known : (f.knownAt s.point).Holds f s

namespace Tracks

variable (hf : f.SingleAssignment) (h : f.Tracks s)

include hf h

theorem executes {m : Move M} (hi : f.instruction? s.block s.index = some i)
    (hexec : Executes f s i op args e) (hperform : s.perform f e = some m) :
    Executes f s ((f.renamesAt s.point).apply i) op args e := by
  refine hexec.rename hperform (fun r hr => ?_) (fun o ho a ha => ?_) rfl
  · exact (hf.soundAt s.point).lookup_eq_none hf ⟨i, hi, hr⟩
  · exact Renames.eval_applyOperand hf h.renames (renamesAt_subset_all hi) (hf.ready hi ho) ha

theorem serves {entry : RegId × Source} (hdrop : f.Dropped s.point entry)
    (hstep : f.step s = some (.go s')) : Serves (s'.regs entry.1) (s'.regs entry.2.id) := by
  obtain ⟨i, hi, hredundant⟩ := hdrop
  have hsound := hf.soundAt s.point
  rcases step_cases hstep with ⟨i', op, args, e, hi', hexec, hperform⟩ | ⟨hnone, -, -⟩
  · cases hi.symm.trans hi'
    have hexec' := h.executes hf hi hexec hperform
    have hdest := (Known.redundant?_cases hredundant).1
    obtain ⟨d, w, hd, hw, hreg, -⟩ := hexec'.exists_of_virtualDef? hdest hperform
    rw [hreg, regs_of_step hstep h.arrives (hsound.known.ready_source hredundant).available]
    exact hexec'.serves h.known hredundant hd hw
  · cases hi.symm.trans hnone

theorem renames_step (hstep : f.step s = some (.go s')) : f.RenamesHold s' := by
  intro entry hentry p hp hdom
  obtain ⟨q, hq⟩ := hf.renamedAt_of_mem hentry
  cases hf.unique hp hq.defines
  -- The register was defined before, or it is the one whose definition is dropped here.
  by_cases hpoint : s.point = p
  · subst hpoint
    exact h.serves hf hq.dropped hstep
  · have hdom' := hdom.of_flow (flow_of_step hstep) hpoint
    have havailable : f.Available s.point entry.1 := by
      intro p' hp'
      cases hf.unique hp' hp
      exact hdom'
    rw [regs_of_step hstep h.arrives havailable,
      regs_of_step hstep h.arrives (hq.ready.of_dominates hdom').available]
    exact h.renames entry hentry p hp hdom'

theorem known_step (hM : M.Layout f.frame) (hstep : f.step s = some (.go s')) :
    (f.knownAt s'.point).Holds f s' := by
  have hready := (hf.soundAt s.point).known
  have hflow := flow_of_step hstep
  generalize s'.point = y at hflow
  rw [State.point] at hflow
  cases hflow with
  | jump =>
    rw [knownAt_zero]
    exact .empty f s'
  | fall =>
    rw [knownAt_zero]
    exact .empty f s'
  | next hi =>
    rcases step_cases hstep with ⟨i, op, args, e, hi', hexec, hperform⟩ | ⟨hnone, -, -⟩
    · have hexec' := h.executes hf hi' hexec hperform
      cases hredundant :
        (f.knownAt s.point).redundant? f.definitions ((f.renamesAt s.point).apply i) with
      | some entry =>
        have hdest := (Known.redundant?_cases hredundant).1
        obtain ⟨-, -, -, -, -, hmemory⟩ := hexec'.exists_of_virtualDef? hdest hperform
        rw [(progress_of_drop ⟨i, hi', hredundant⟩).1]
        exact h.known.step hready h.arrives hstep hmemory
      | none =>
        rw [(progress_of_keep hi' hredundant).1]
        exact h.known.after h.arrives hready hstep hexec' hperform hM
          ((hf.soundAt s.point).ready_uses hf hi')
    · cases hi.symm.trans hnone

/-- **What is known and what is renamed stays true along a run.** -/
theorem step (hM : M.Layout f.frame) (hstep : f.step s = some (.go s')) : f.Tracks s' :=
  ⟨h.arrives.step (flow_of_step hstep), h.renames_step hf hstep, h.known_step hf hM hstep⟩

end Tracks

end Function

end Retarget.Machine
