import Mathlib.Data.List.Perm.Basic
import Retarget.Proofs.Aliasing
import Retarget.Proofs.Shape.Basic

/-!
# Allocation keeps shapes

The moves before returns are shaped like what they move (`shaped_moveReturn`).  Every id of the code
has a register and every slot its place in the frame, so an instruction with at most one place
becomes one over final operands (`yields_placeInstruction`), and so does the whole function
(`yields_allocateRegisters`).
-/

namespace Retarget.Machine

variable {t : Target} {slots : List Slot}

/-! ## Assignments -/

namespace Function

variable {f : Function}

theorem yields_bindParameters (t : Target) (name : String) (next nextFloat : Nat)
    (params : List Parameter) :
    Yields (fun _ => True) (bindParameters t name next nextFloat params) := by
  induction params generalizing next nextFloat with
  | nil => exact .ok trivial
  | cons p rest ih =>
    dsimp only [bindParameters]
    split
    · exact (ih next nextFloat).bind fun _ _ => .pure trivial
    · split
      · refine .orFail_bind rfl fun _ _ => ?_
        exact (ih next (nextFloat + 1)).bind fun _ _ => .pure trivial
      · refine .orFail_bind rfl fun _ _ => ?_
        exact (ih (next + 1) nextFloat).bind fun _ _ => .pure trivial

theorem yields_planReturn (t : Target) (f : Function) (ranges : List LiveRange)
    (bound : List (RegId × RegId)) (i : Instruction) :
    Yields (fun _ => True) (planReturn t f ranges bound i) := by
  rw [planReturn]
  split
  · exact .ok trivial
  · next value _ =>
    split
    · refine .orFail_bind rfl fun first _ => ?_
      dsimp only
      split
      · exact .pure trivial
      · split
        · split
          · exact .pure trivial
          · exact .pure trivial
        · exact .pure trivial
    · exact .pure trivial

theorem yields_bindInstructions (t : Target) (f : Function) (ranges : List LiveRange)
    (bound : List (RegId × RegId)) (is : List Instruction) :
    Yields (fun _ => True) (bindInstructions t f ranges bound is) := by
  induction is generalizing bound with
  | nil => exact .ok trivial
  | cons i is ih =>
    exact (yields_planReturn t f ranges bound i).bind fun r _ =>
      (ih r.1).bind fun _ _ => .pure trivial

theorem yields_bindBlocks (t : Target) (f : Function) (ranges : List LiveRange)
    (bound : List (RegId × RegId)) (blocks : List Block) :
    Yields (fun _ => True) (bindBlocks t f ranges bound blocks) := by
  induction blocks generalizing bound with
  | nil => exact .ok trivial
  | cons block blocks ih =>
    exact (yields_bindInstructions t f ranges bound block.instructions).bind fun r _ =>
      (ih r.1).bind fun _ _ => .pure trivial

theorem yields_place (t : Target) (name : String) (s : Scan) (range : LiveRange) :
    Yields (fun _ => True) (s.place t name range) := by
  rw [Scan.place]
  split
  · exact .ok trivial
  · exact .orFail_bind rfl fun _ _ => .pure trivial

/-- Assignment fails only for want of registers. -/
theorem yields_assignRegisters (t : Target) (f : Function) :
    Yields (fun _ => True) (f.assignRegisters t) := by
  rw [assignRegisters]
  refine (yields_bindParameters t f.name 0 0 f.params).bind fun bound _ => ?_
  refine Yields.bind (P := fun _ => True) ?_ fun r _ => ?_
  · exact (yields_bindBlocks t f f.liveRanges bound f.blocks).bind fun _ _ => .pure trivial
  · refine Yields.bind (P := fun _ => True) ?_ fun _ _ => .pure trivial
    exact .foldlM trivial fun s _ range _ => yields_place t _ s range

/-! ## Moves before returns -/

/-- A value that is handed back is a register, so a move of it is shaped, and so is the return of
the register it is moved to. -/
theorem shaped_moveReturn {i : Instruction} {home : Option RegId} (h : i.Shaped t slots)
    (hhome : home.isSome → ∃ id ty, returned? i = some (id, ty)) :
    ∀ j ∈ moveReturn t i home, j.Shaped t slots := by
  cases home with
  | none => simpa using h
  | some reg =>
    obtain ⟨id, ty, hreturned⟩ := hhome rfl
    obtain ⟨-, value, rest, hops, hkind, -⟩ := returned?_eq_some hreturned
    have hvalue : i.operand? 0 = some value := by simp [Instruction.operand?, hops]
    have htraits : value.traits = (false, none, false) := by
      obtain ⟨kind, ty, regClass⟩ := value
      cases kind <;> first | rfl | simp [Operand.isVirtual, Operand.isParameter] at hkind
    have hplace : value.isPlace = false := congrArg Prod.fst htraits
    simp only [moveReturn, hvalue, List.mem_cons, List.not_mem_nil, or_false, forall_eq_or_imp,
      forall_eq]
    refine ⟨Instruction.shaped_plain ?_ ?_ ?_, h.replaceOperand hvalue htraits.symm⟩
    · split <;> simp [GenericOp.layouts]
    · simp [hplace]
    · split <;> decide

theorem shaped_assignRegisters (ht : t.Regular) {a : Allocation} {g : Function}
    (hf : f.All (·.Shaped t f.slots)) (h : f.assignRegisters t = .ok (a, g)) :
    g.All (·.Shaped t g.slots) := by
  obtain ⟨params, bound, g', s, -, hreturns, -, -, rfl⟩ := assignRegisters_cases ht h
  obtain ⟨plan, hplan, hfst, hcode, hg'⟩ := bindReturns_plan hreturns
  have hslots : g'.slots = f.slots := by rw [hg']; rfl
  intro i hi
  show i.Shaped t g'.slots
  replace hi : i ∈ g'.instructions := hi
  rw [hcode, Plan.code, List.mem_flatMap] at hi
  obtain ⟨⟨j, home⟩, hj, hi⟩ := hi
  rw [hslots]
  refine shaped_moveReturn (hf j ?_) (fun hsome => ?_) i hi
  · rw [← hfst]
    exact List.mem_map_of_mem hj
  · obtain ⟨reg, rfl⟩ := Option.isSome_iff_exists.mp hsome
    exact hplan.movable j reg hj

/-! ## Code over physical registers -/

theorem yields_positionFrom {slot : Slot} (objects : List FrameObject) (start : Nat)
    (h : slot ∈ objects.map (·.slot)) :
    Yields (fun position => position.isSome) (Frame.positionFrom slot start objects) := by
  induction objects generalizing start with
  | nil => simp at h
  | cons o rest ih =>
    rw [Frame.positionFrom]
    split
    · exact .ok rfl
    · next hne =>
      refine (yields_fit 32 (start + o.size)).bind fun next _ => ih next ?_
      simp only [List.map_cons, List.mem_cons] at h
      exact h.resolve_left fun heq => hne (by simp [heq])

theorem yields_position? {frame : Frame} {slot : Slot} (h : slot ∈ frame.objects.map (·.slot)) :
    Yields (fun position => position.isSome) (frame.position? slot) :=
  yields_positionFrom frame.objects 0 h

section Placing

variable {assigned : List (RegId × RegId)} {i j : Instruction}

theorem isPlace_placeOperand {name : String} {o o' : Operand}
    (h : placeOperand t name assigned o = .ok o') : o'.isPlace = o.isPlace := by
  obtain ⟨kind, ty, regClass⟩ := o
  cases kind with
  | virtualReg id | parameter id =>
    obtain ⟨reg, hreg, h⟩ := bind_eq_ok.mp h
    cases h
    rfl
  | _ =>
    cases h
    rfl

/-- **A placed instruction** has the placed operands; of the first that is a place in memory, the
base and the offset follow behind the others. -/
theorem placeInstruction_cases (h : placeInstruction t f assigned i = .ok j) :
    ∃ operands, i.operands.mapM (placeOperand t f.name assigned) = .ok operands ∧
      ((∀ o ∈ operands, o.isPlace = false) ∧ j = i.withOperands operands ∨
        ∃ before place after base offset, operands = before ++ place :: after ∧
          (∀ o ∈ before, o.isPlace = false) ∧ place.isPlace ∧
          resolveMemory t f assigned place = .ok (base, offset) ∧
          j = i.withOperands (before ++ after ++
            [.physicalReg base t.pointerType, .immediate offset t.offsetType])) := by
  obtain ⟨operands, hoperands, h⟩ := bind_eq_ok.mp h
  refine ⟨operands, hoperands, ?_⟩
  dsimp only at h
  cases hindex : (i.withOperands operands).memoryIndex? with
  | none =>
    rw [hindex] at h
    cases h
    exact .inl ⟨List.findIdx?_eq_none_iff.mp hindex, rfl⟩
  | some k =>
    obtain ⟨hk, hplace, hbefore⟩ := List.findIdx?_eq_some_iff_getElem.mp hindex
    replace hk : k < operands.length := hk
    have hget : (i.withOperands operands).operand? k = some operands[k] :=
      List.getElem?_eq_getElem hk
    rw [hindex] at h
    dsimp only at h
    rw [hget] at h
    obtain ⟨⟨base, offset⟩, hresolve, h⟩ := bind_eq_ok.mp h
    cases h
    refine .inr ⟨operands.take k, operands[k], operands.drop (k + 1), base, offset, ?_,
      fun o ho => ?_, hplace, hresolve, ?_⟩
    · rw [← List.drop_eq_getElem_cons hk, List.take_append_drop]
    · obtain ⟨n, hn, rfl⟩ := List.mem_take_iff_getElem.mp ho
      exact Bool.eq_false_iff.mpr (hbefore n (by omega))
    · rw [← List.eraseIdx_eq_take_drop_succ]
      rfl

theorem placeInstruction_eq_withOperands (h : placeInstruction t f assigned i = .ok j) :
    ∃ operands, j = i.withOperands operands := by
  obtain ⟨operands, -, ⟨-, rfl⟩ | ⟨before, place, after, base, offset, -, -, -, -, rfl⟩⟩ :=
    placeInstruction_cases h
  · exact ⟨_, rfl⟩
  · exact ⟨_, rfl⟩

theorem opcode_placeInstruction (h : placeInstruction t f assigned i = .ok j) :
    j.opcode = i.opcode := by
  obtain ⟨operands, rfl⟩ := placeInstruction_eq_withOperands h
  rfl

theorem flags_placeInstruction (h : placeInstruction t f assigned i = .ok j) :
    j.flags = i.flags := by
  obtain ⟨operands, rfl⟩ := placeInstruction_eq_withOperands h
  rfl

theorem operands_placeInstruction (hplace : true ∉ i.layout)
    (h : placeInstruction t f assigned i = .ok j) :
    List.Forall₂ (fun o o' => placeOperand t f.name assigned o = .ok o') i.operands j.operands := by
  obtain ⟨operands, hoperands, hcases⟩ := placeInstruction_cases h
  have hplaced := forall₂_of_mapM_eq_ok hoperands
  obtain ⟨-, rfl⟩ | ⟨before, o', after, base, offset, rfl, -, hisplace, -, -⟩ := hcases
  · exact hplaced
  · obtain ⟨o, ho, hsame⟩ := exists_mem_of_forall₂ hplaced.flip
      (List.mem_append_right before List.mem_cons_self)
    rw [isPlace_placeOperand hsame] at hisplace
    exact absurd (hisplace ▸ List.mem_map_of_mem ho) hplace

theorem yields_assignedReg (name : String) {id : RegId} (h : (assigned.lookup id).isSome) :
    Yields (fun _ => True) (assignedReg name assigned id) := by
  obtain ⟨reg, hreg⟩ := Option.isSome_iff_exists.mp h
  rw [assignedReg, hreg]
  exact .ok trivial

theorem yields_placeOperand (name : String) {o : Operand}
    (h : ∀ id, o.unallocated? = some id → (assigned.lookup id).isSome) :
    Yields (fun o' => o'.isPlace = o.isPlace ∧ (o'.isFinal ∨ o' = o ∧ o.isPlace))
      (placeOperand t name assigned o) := by
  obtain ⟨kind, ty, regClass⟩ := o
  cases kind with
  | virtualReg id | parameter id =>
    exact (yields_assignedReg name (h id rfl)).bind fun reg _ => .pure ⟨rfl, .inl rfl⟩
  | memory base offset | stack slot offset => exact .ok ⟨rfl, .inr ⟨rfl, rfl⟩⟩
  | _ => exact .ok ⟨rfl, .inl rfl⟩

theorem yields_resolveMemory {o : Operand} (hplace : o.IsPlaceIn f.slots)
    (h : ∀ id, o.unallocated? = some id → (assigned.lookup id).isSome) :
    Yields (fun _ => True) (resolveMemory t f assigned o) := by
  obtain ⟨kind, ty, regClass⟩ := o
  cases kind with
  | stack slot offset =>
    refine (yields_position? (hplace.2 slot rfl)).bind fun position hposition => ?_
    obtain ⟨p, rfl⟩ := Option.isSome_iff_exists.mp hposition
    exact (yields_fitSigned (p + offset)).bind fun _ _ => .pure trivial
  | memory base offset =>
    exact (yields_assignedReg f.name (h base rfl)).bind fun _ _ => .pure trivial
  | _ => exact absurd hplace.1 (by simp [Operand.isPlace, Operand.isMemory, Operand.isStack])

theorem count_place_le_one (h : i.Shaped t slots) : i.layout.count true ≤ 1 := by
  have hform := h.form
  cases hcode : i.opcode with
  | generic op =>
    have hcount : ∀ layout ∈ op.layouts, layout.count true ≤ 1 := by cases op <;> decide
    exact hcount _ (h.layout_mem hcode)
  | native n =>
    rw [hcode] at hform
    simp [List.count_eq_zero_of_not_mem hform.2]

theorem allocated_withOperands (h : i.Shaped t slots) {operands : List Operand}
    (hlength : operands.length = i.layout.length + i.layout.count true)
    (hfinal : ∀ o ∈ operands, o.isFinal) : (i.withOperands operands).Allocated t := by
  refine ⟨?_, hfinal⟩
  have hform := h.form
  cases hcode : i.opcode with
  | generic op =>
    have hopcode : (i.withOperands operands).opcode = .generic op := hcode
    rw [hcode] at hform
    rw [hopcode]
    dsimp only [Instruction.operands_withOperands] at hform ⊢
    rw [hlength]
    exact List.mem_map_of_mem hform
  | native n =>
    have hopcode : (i.withOperands operands).opcode = .native n := hcode
    rw [hcode] at hform
    rw [hopcode]
    rw [List.count_eq_zero_of_not_mem hform.2, Instruction.layout, List.length_map] at hlength
    exact hform.1.congr rfl hlength

theorem isPlace_of_mem_eraseIdx {os : List Operand} (hcount : os.countP (·.isPlace) ≤ 1) {k : Nat}
    (hk : k < os.length) (hplace : os[k].isPlace) :
    os.countP (·.isPlace) = 1 ∧ ∀ o ∈ os.eraseIdx k, o.isPlace = false := by
  have hperm : os.countP (·.isPlace) = (os.eraseIdx k).countP (·.isPlace) + 1 := by
    rw [← (List.getElem_cons_eraseIdx_perm hk).countP_eq, List.countP_cons_of_pos hplace]
  have hrest : (os.eraseIdx k).countP (·.isPlace) = 0 := by omega
  refine ⟨by omega, ?_⟩
  simpa [List.countP_eq_zero] using hrest

theorem yields_placeInstruction (h : i.Shaped t f.slots)
    (hassigned : ∀ id ∈ i.ids, (assigned.lookup id).isSome) :
    Yields (Instruction.Allocated t) (placeInstruction t f assigned i) := by
  have hid : ∀ o ∈ i.operands, ∀ id, o.unallocated? = some id → (assigned.lookup id).isSome :=
    fun o ho id hid => hassigned id (List.mem_filterMap.mpr ⟨o, ho, hid⟩)
  have hoperands : Yields (fun os => os.map (·.isPlace) = i.operands.map (·.isPlace) ∧
      ∀ o ∈ os, o.isFinal ∨ o ∈ i.operands ∧ o.isPlace)
      (i.operands.mapM (placeOperand t f.name assigned)) := by
    refine Yields.mapM_map fun o ho => ?_
    refine (yields_placeOperand f.name (hid o ho)).mono fun o' ho' => ⟨ho'.1, ?_⟩
    refine ho'.2.imp_right fun hsame => ?_
    rw [hsame.1]
    exact ⟨ho, hsame.2⟩
  refine hoperands.bind fun operands ⟨hmap, hall⟩ => ?_
  have hlength : operands.length = i.layout.length := by
    simpa [Instruction.layout] using congrArg List.length hmap
  have hplaces : i.layout.count true = operands.countP (·.isPlace) := by
    rw [Instruction.layout, ← hmap, List.count, List.countP_map]
    congr 1
    funext o
    simp
  have hcount := count_place_le_one h
  rw [hplaces] at hcount
  dsimp only
  cases hindex : (i.withOperands operands).memoryIndex? with
  | none =>
    have hplain : ∀ o ∈ operands, o.isPlace = false := List.findIdx?_eq_none_iff.mp hindex
    refine .pure (allocated_withOperands h ?_ fun o ho => ?_)
    · rw [hplaces, hlength, List.countP_eq_zero.mpr (by simpa using hplain), Nat.add_zero]
    · exact (hall o ho).resolve_right fun hplace => by simp [hplain o ho] at hplace
  | some k =>
    obtain ⟨hk, hplace, -⟩ := List.findIdx?_eq_some_iff_getElem.mp hindex
    replace hk : k < operands.length := hk
    replace hplace : operands[k].isPlace := hplace
    have hget : (i.withOperands operands).operand? k = some operands[k] :=
      List.getElem?_eq_getElem hk
    obtain ⟨hone, hplain⟩ := isPlace_of_mem_eraseIdx hcount hk hplace
    have hmem : operands[k] ∈ i.operands := by
      refine ((hall _ (List.getElem_mem hk)).resolve_left fun hfinal => ?_).1
      simp [Operand.isPlace_of_isFinal hfinal] at hplace
    dsimp only
    rw [hget]
    refine (yields_resolveMemory ⟨hplace, h.inFrame _ hmem⟩ (hid _ hmem)).bind fun r _ => ?_
    refine .pure (allocated_withOperands h ?_ fun o ho => ?_)
    · show ((operands.eraseIdx k) ++ _).length = _
      rw [List.length_append, List.length_eraseIdx_of_lt hk, hplaces, hone, hlength]
      simp only [List.length_cons, List.length_nil]
      omega
    · rcases List.mem_append.mp ho with ho | ho
      · refine (hall o (List.mem_of_mem_eraseIdx ho)).resolve_right fun hplace => ?_
        simp [hplain o ho] at hplace
      · simp only [List.mem_cons, List.not_mem_nil, or_false] at ho
        rcases ho with rfl | rfl <;> rfl

end Placing

/-- **An allocated function** is that with the moves, all of whose instructions are placed. -/
theorem exists_placed_of_allocateRegisters {g : Function} (h : f.allocateRegisters t = .ok g) :
    ∃ alloc f' blocks, f.assignRegisters t = .ok (alloc, f') ∧ g = { f' with blocks := blocks } ∧
      List.Forall₂ (fun b b' : Block => List.Forall₂
        (fun i j => placeInstruction t f' alloc.assigned i = .ok j) b.instructions b'.instructions)
        f'.blocks blocks := by
  obtain ⟨⟨alloc, f'⟩, hassign, h⟩ := bind_eq_ok.mp h
  obtain ⟨blocks, hblocks, h⟩ := bind_eq_ok.mp h
  cases h
  refine ⟨alloc, f', blocks, hassign, rfl, (forall₂_of_mapM_eq_ok hblocks).imp fun b b' hb => ?_⟩
  obtain ⟨instructions, hinstructions, hb⟩ := bind_eq_ok.mp hb
  cases hb
  exact forall₂_of_mapM_eq_ok hinstructions

/-- **Allocation leaves final operands only**, as many as each operation asks for. -/
theorem yields_allocateRegisters (ht : t.Regular) (hf : f.All (·.Shaped t f.slots)) :
    Yields (fun g => g.All (·.Allocated t)) (f.allocateRegisters t) := by
  rw [allocateRegisters]
  refine (yields_assignRegisters t f).bind_of_eq fun ⟨a, g⟩ hassign _ => ?_
  have hg := shaped_assignRegisters ht hf hassign
  have htotal := assigned_total ht hassign
  obtain ⟨_, _, g', s, -, -, -, rfl, hg'⟩ := assignRegisters_cases ht hassign
  have hassigned : ∀ i ∈ g.instructions, ∀ id ∈ i.ids, (s.assigned.lookup id).isSome := by
    intro i hi id hid
    rw [show g.instructions = g'.instructions by rw [hg']; rfl] at hi
    obtain ⟨n, hn⟩ := List.mem_iff_getElem?.mp hi
    have hmem : id ∈ g'.liveRanges.map (·.reg) :=
      (g'.liveRanges_hulls.mem_iff id).mpr (.inr ⟨n, i, hn, hid⟩)
    obtain ⟨r, hr, rfl⟩ := List.mem_map.mp hmem
    exact Option.isSome_iff_exists.mpr (htotal r hr)
  refine Yields.bind (P := fun blocks => ∀ b ∈ blocks, ∀ i ∈ b.instructions, i.Allocated t) ?_
    fun blocks hblocks => .pure fun i hi => ?_
  · refine .mapM fun b hb => ?_
    refine Yields.bind (Yields.mapM fun i hi => ?_) fun is his => .pure his
    have hi : i ∈ g.instructions := mem_instructions.mpr ⟨b, hb, hi⟩
    exact yields_placeInstruction (hg i hi) (hassigned i hi)
  · obtain ⟨b, hb, hi⟩ := mem_instructions.mp hi
    exact hblocks b hb i hi

end Function

end Retarget.Machine
