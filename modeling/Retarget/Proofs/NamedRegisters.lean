import Retarget.Proofs.Aliasing

/-!
# Registers that instructions name

Instructions may name physical registers, and a call overwrites some without naming them.  A value
from the pool is in a register that no instruction names.  A returned value is bound to the result
register only if nothing inside its live range names that register and no call lies there; the moves
before returns, put in afterwards, stretch the range but let nothing else into it
(`Plan.inside_before`).  So inside the range of an id that is no parameter, only such a move and its
return name the register of the id (`assignRegisters_undisturbed`).
-/

namespace Retarget.Machine.Function

variable {t : Target} {f g : Function} {a : Allocation} {ranges : List LiveRange}
  {bound bound' : List (RegId × RegId)} {plan : List (Instruction × Option RegId)}
  {e e' : Instruction × Option RegId} {i i' : Instruction} {id reg : RegId} {n n' m m' : Nat}

/-! ## Positions in the code of a plan -/

namespace Plan

/-- The code of a plan has `i` at position `m`, and it comes from the decision `e` at position
`n`. -/
structure ComesFrom (t : Target) (plan : List (Instruction × Option RegId)) (m : Nat)
    (i : Instruction) (n : Nat) (e : Instruction × Option RegId) : Prop where
  decision : plan[n]? = some e
  offset : ∃ j, (moveReturn t e.1 e.2)[j]? = some i ∧ m = (code t (plan.take n)).length + j

theorem exists_comesFrom (h : (code t plan)[m]? = some i) : ∃ n e, ComesFrom t plan m i n e := by
  induction plan generalizing m with
  | nil => cases h
  | cons e plan ih =>
    rw [code_cons, List.getElem?_append] at h
    split at h
    · exact ⟨0, e, rfl, m, h, by simp [code]⟩
    · next hle =>
      obtain ⟨n, e', hdecision, j, hj, hm⟩ := ih h
      refine ⟨n + 1, e', hdecision, j, hj, ?_⟩
      rw [List.take_succ_cons, code_cons, List.length_append]
      omega

theorem length_code_take_succ (h : plan[n]? = some e) :
    (code t (plan.take (n + 1))).length =
      (code t (plan.take n)).length + (moveReturn t e.1 e.2).length := by
  rw [List.take_add_one, h, Option.toList_some, code, code, List.flatMap_append,
    List.length_append, List.flatMap_singleton]

theorem length_code_take_mono (h : n ≤ n') :
    (code t (plan.take n)).length ≤ (code t (plan.take n')).length := by
  obtain ⟨d, rfl⟩ := Nat.exists_eq_add_of_le h
  rw [List.take_add, code, code, List.flatMap_append, List.length_append]
  exact Nat.le_add_right _ _

namespace ComesFrom

theorem position_lt (h : ComesFrom t plan m i n e) :
    m < (code t (plan.take (n + 1))).length := by
  obtain ⟨j, hj, rfl⟩ := h.offset
  rw [length_code_take_succ h.decision]
  exact Nat.add_lt_add_left (List.getElem?_eq_some_iff.mp hj).1 _

theorem le_of_le (h : ComesFrom t plan m i n e) (h' : ComesFrom t plan m' i' n' e')
    (hle : m ≤ m') : n ≤ n' := by
  by_contra hlt
  have hlater : n' + 1 ≤ n := Nat.lt_of_not_le hlt
  have hmono : (code t (plan.take (n' + 1))).length ≤ (code t (plan.take n)).length :=
    length_code_take_mono hlater
  have hend := h'.position_lt
  obtain ⟨j, -, rfl⟩ := h.offset
  omega

theorem of_none (h : ComesFrom t plan m i n (i', none)) :
    i = i' ∧ m = (code t (plan.take n)).length := by
  obtain ⟨j, hj, rfl⟩ := h.offset
  cases j with
  | zero => exact ⟨(Option.some.inj hj).symm, rfl⟩
  | succ j => cases hj

theorem lt_of_lt_of_none (h : ComesFrom t plan m i n e) (h' : ComesFrom t plan m' i' n' (i', none))
    (hlt : m < m') : n < n' := by
  refine Nat.lt_of_le_of_ne (h.le_of_le h' (Nat.le_of_lt hlt)) ?_
  rintro rfl
  obtain ⟨j, -, rfl⟩ := h.offset
  have := h'.of_none.2
  omega

theorem lt_of_none_of_lt (h : ComesFrom t plan m i n (i, none)) (h' : ComesFrom t plan m' i' n' e')
    (hlt : m < m') : n < n' := by
  refine Nat.lt_of_le_of_ne (h.le_of_le h' (Nat.le_of_lt hlt)) ?_
  rintro rfl
  have hsame : e' = (i, none) := Option.some.inj (h'.decision.symm.trans h.decision)
  subst hsame
  have := h.of_none.2
  have := h'.of_none.2
  omega

end ComesFrom

theorem exists_of_occursAt_code (hmovable : Movable plan) (h : OccursAt (code t plan) id m) :
    ∃ i n e, ComesFrom t plan m i n e ∧ OccursAt (plan.map (·.1)) id n := by
  obtain ⟨i, hi, hid⟩ := h
  obtain ⟨n, e, hfrom⟩ := exists_comesFrom hi
  refine ⟨i, n, e, hfrom, e.1, by rw [List.getElem?_map, hfrom.decision]; rfl, ?_⟩
  have hmov : Movable [(e.1, e.2)] := fun j r hmem =>
    hmovable j r (List.mem_singleton.mp hmem ▸ List.mem_of_getElem? hfrom.decision)
  obtain ⟨j, hj, -⟩ := hfrom.offset
  exact (occurs_moveReturn hmov).mp ⟨i, List.mem_of_getElem? hj, hid⟩

/-- **An instruction without a move lies inside the range of an id only if it did so before the
moves were put in.** -/
theorem inside_before {params : List RegId} {r r' : LiveRange} (hmovable : Movable plan)
    (hbefore : LiveRange.IsHull params (OccursAt (plan.map (·.1))) r)
    (hafter : LiveRange.IsHull params (OccursAt (code t plan)) r') (hreg : r.reg = r'.reg)
    (hparam : r'.reg ∉ params) (hfrom : ComesFrom t plan m i n (i, none))
    (hstart : r'.start < m) (hstop : m < r'.stop) : r.start < n ∧ n < r.stop := by
  constructor
  · obtain ⟨i₁, n₁, e₁, hfirst, hocc⟩ :=
      exists_of_occursAt_code hmovable (hafter.start_occ hparam)
    exact Nat.lt_of_le_of_lt (hbefore.covers n₁ (hreg ▸ hocc)).1
      (hfirst.lt_of_lt_of_none hfrom hstart)
  · have hlast : OccursAt (code t plan) r'.reg r'.stop :=
      hafter.stop_occ.resolve_right fun h => hparam h.1
    obtain ⟨i₂, n₂, e₂, hlast, hocc⟩ := exists_of_occursAt_code hmovable hlast
    exact Nat.lt_of_lt_of_le (hfrom.lt_of_none_of_lt hlast hstop)
      (hbefore.covers n₂ (hreg ▸ hocc)).2

/-- A binding was there before, or its register is not overwritten inside the range of its id. -/
theorem lookup_not_overwritten (h : Plan t f ranges bound plan bound')
    (hid : bound'.lookup id = some reg) : bound.lookup id = some reg ∨
      ∃ range, ranges.find? (·.reg == id) = some range ∧ ¬ isOverwritten t f range reg := by
  induction h with
  | nil => exact .inl hid
  | cons step tail ih =>
    rcases ih hid with hold | hnew
    · rcases planReturn_bound step with rfl | ⟨id', ty, reg', range, -, -, -, hrange, -, hover,
        rfl, -⟩
      · exact .inl hold
      · rw [List.lookup_cons] at hold
        split at hold
        · next heq =>
          cases hold
          rw [eq_of_beq heq]
          exact .inr ⟨range, hrange, hover⟩
        · exact .inl hold
    · exact .inr hnew

end Plan

/-! ## Registers that are named -/

/-- An operand of the instruction is a physical register that shares storage with the register. -/
def Names (t : Target) (i : Instruction) (reg : RegId) : Prop :=
  ∃ o ∈ i.operands, ∃ p, o.kind = .physicalReg p ∧ t.registers.overlaps p reg

theorem Names.mem_physicalRoots (h : Names t i reg) (hroot : t.registers.root reg = reg) :
    reg ∈ physicalRoots t i := by
  obtain ⟨o, ho, p, hkind, hover⟩ := h
  refine List.mem_filterMap.mpr ⟨o, List.mem_filter.mpr ⟨ho, by rw [Operand.isPhysical, hkind]⟩, ?_⟩
  have hsame : t.registers.root p = reg := by simpa [Target.Registers.overlaps, hroot] using hover
  rw [Operand.reg?, hkind, Option.map_some, hsame]

theorem not_names_of_mem_free (hfree : reg ∈ (freePool t bound g).free)
    (hroot : t.registers.root reg = reg) (hi : i ∈ g.instructions) : ¬ Names t i reg := by
  intro hnames
  rw [free_freePool, List.mem_filter] at hfree
  have hmem : reg ∈ bound.map (·.2) ++ g.instructions.flatMap (physicalRoots t) :=
    List.mem_append_right _ (List.mem_flatMap.mpr ⟨i, hi, hnames.mem_physicalRoots hroot⟩)
  have hout := hfree.2
  rw [List.contains_iff_mem.mpr hmem] at hout
  cases hout

theorem of_not_isOverwritten {range : LiveRange} (h : ¬ isOverwritten t f range reg)
    (hi : f.instructions[n]? = some i) (hstart : range.start < n) (hstop : n < range.stop) :
    i.isCall = false ∧ reg ∉ physicalRoots t i := by
  have hinside : (range.covers n && n != range.start && n != range.stop) = true := by
    simp only [LiveRange.covers, Bool.and_eq_true, decide_eq_true_eq, bne_iff_ne]
    omega
  have hquiet : ¬ (i.isCall = true ∨ reg ∈ physicalRoots t i) := by
    intro hwrites
    refine h (List.any_eq_true.mpr ⟨(i, n), List.mem_zipIdx_iff_getElem?.mpr hi, ?_⟩)
    rw [Bool.and_eq_true, Bool.or_eq_true, List.contains_iff_mem]
    exact ⟨hinside, hwrites⟩
  rw [not_or, Bool.not_eq_true] at hquiet
  exact hquiet

/-- At the position stands a move that was put before a return, or the return behind it. -/
def MovedAt (t : Target) (f : Function) (m : Nat) : Prop :=
  ∃ params bound plan before i home behind, bindParameters t f.name 0 0 f.params = .ok params ∧
    Plan t f f.liveRanges params plan bound ∧ plan.map (·.1) = f.instructions ∧
    plan = before ++ (i, some home) :: behind ∧
    (m = (Plan.code t before).length ∨ m = (Plan.code t before).length + 1)

theorem Plan.ComesFrom.movedAt {params bound : List (RegId × RegId)}
    (hparams : bindParameters t f.name 0 0 f.params = .ok params)
    (hplan : Plan t f f.liveRanges params plan bound) (hfst : plan.map (·.1) = f.instructions)
    (h : ComesFrom t plan m i' n (i, some reg)) : MovedAt t f m := by
  obtain ⟨hn, hi⟩ := List.getElem?_eq_some_iff.mp h.decision
  refine ⟨params, bound, plan, plan.take n, i, reg, plan.drop (n + 1), hparams, hplan, hfst, ?_, ?_⟩
  · rw [← hi, List.getElem_cons_drop, List.take_append_drop]
  · obtain ⟨id, ty, hret⟩ := hplan.movable i reg (List.mem_of_getElem? h.decision)
    obtain ⟨move, ret, hcode, -⟩ := moveReturn_some (t := t) hret reg
    obtain ⟨j, hj, rfl⟩ := h.offset
    rw [hcode] at hj
    have hlt := (List.getElem?_eq_some_iff.mp hj).1
    simp only [List.length_cons, List.length_nil] at hlt
    omega

theorem isCall_moveReturn {home : RegId} (hi : i.isCall = false)
    (h : i' ∈ moveReturn t i (some home)) : i'.isCall = false := by
  cases hvalue : i.operand? 0 with
  | none =>
    simp only [moveReturn, hvalue, List.mem_singleton] at h
    rwa [h]
  | some value =>
    simp only [moveReturn, hvalue, List.mem_cons, List.not_mem_nil, or_false] at h
    rcases h with rfl | rfl
    · split <;> rfl
    · exact hi

/-- **Inside the range of an id, nothing gets at its register**: only the moves before returns and
these returns name it, and over the range of an id that is pinned to its register there is no
call. -/
theorem assignRegisters_undisturbed (arch : Arch) (f g : Function) (a : Allocation)
    (h : f.assignRegisters arch.target = .ok (a, g))
    (hreturns : ∀ i ∈ f.instructions, i.isReturn → i.isCall = false) :
    ∀ r ∈ a.ranges, r.reg ∉ f.paramIds → ∃ reg, a.assigned.lookup r.reg = some reg ∧
      ∀ m i, r.start < m → m < r.stop → g.instructions[m]? = some i →
        (Names arch.target i reg → MovedAt arch.target f m) ∧
        (Pinned arch.target f r.reg reg → i.isCall = false) := by
  have ht := arch.regular
  intro r hr hparam
  obtain ⟨reg, hreg⟩ := assigned_total ht h r hr
  have hroot := root_of_assigned ht h hreg
  obtain ⟨params, bound, g', s, hparams, hbind, hsound, rfl, rfl⟩ := assignRegisters_cases ht h
  obtain ⟨plan, hplan, hfst, hcode, -⟩ := bindReturns_plan hbind
  -- what comes from an instruction without a move was inside the range before, and undisturbed
  have hquiet : bound.lookup r.reg = some reg → ∀ {m n i}, r.start < m → m < r.stop →
      Plan.ComesFrom arch.target plan m i n (i, none) →
      i.isCall = false ∧ reg ∉ physicalRoots arch.target i := by
    intro hbound m n i hstart hstop hfrom
    rcases hplan.lookup_not_overwritten hbound with hold | ⟨range, hrange, hover⟩
    · exact absurd (mem_paramIds_of_lookup hparams hold) hparam
    · have hsame : range.reg = r.reg := by simpa using List.find?_some hrange
      have hbefore := f.liveRanges_hulls.hull range (List.mem_of_find?_eq_some hrange)
      have hafter := g'.liveRanges_hulls.hull r hr
      rw [← hfst] at hbefore
      rw [paramIds_bindReturns hbind, hcode] at hafter
      have hinside :=
        Plan.inside_before hplan.movable hbefore hafter hsame hparam hfrom hstart hstop
      have hi : f.instructions[n]? = some i := by
        rw [← hfst, List.getElem?_map, hfrom.decision]
        rfl
      exact of_not_isOverwritten hover hi hinside.1 hinside.2
  refine ⟨reg, hreg, fun m i hstart hstop hi => ?_⟩
  have hicode : (Plan.code arch.target plan)[m]? = some i := hcode ▸ hi
  obtain ⟨n, ⟨i₀, home⟩, hfrom⟩ := Plan.exists_comesFrom hicode
  refine ⟨fun hnames => ?_, fun hpinned => ?_⟩
  · cases home with
    | some home => exact hfrom.movedAt hparams hplan hfst
    | none =>
      obtain ⟨rfl, -⟩ := hfrom.of_none
      rcases hsound.origin r.reg reg hreg with hbound | ⟨hfree, -⟩
      · exact absurd (hnames.mem_physicalRoots hroot) (hquiet hbound hstart hstop hfrom).2
      · exact absurd hnames (not_names_of_mem_free hfree hroot (List.mem_of_getElem? hi))
  · obtain ⟨params', bound', g'', hparams', hbind', hbound⟩ := hpinned
    cases hparams.symm.trans hparams'
    cases hbind.symm.trans hbind'
    cases home with
    | none =>
      obtain ⟨rfl, -⟩ := hfrom.of_none
      exact (hquiet hbound hstart hstop hfrom).1
    | some home =>
      have hmem : (i₀, some home) ∈ plan := List.mem_of_getElem? hfrom.decision
      obtain ⟨id, ty, hret⟩ := hplan.movable i₀ home hmem
      have hi₀ : i₀ ∈ f.instructions := hfst ▸ List.mem_map_of_mem (f := Prod.fst) hmem
      obtain ⟨j, hj, -⟩ := hfrom.offset
      exact isCall_moveReturn (hreturns i₀ hi₀ (returned?_eq_some hret).1) (List.mem_of_getElem? hj)

theorem straddling_undisturbed : ∃ a g,
    straddling.assignRegisters Arch.aarch64.target = .ok (a, g) ∧
      (∀ i ∈ straddling.instructions, i.isReturn → i.isCall = false) ∧
      ∀ r ∈ a.ranges, r.reg ∉ straddling.paramIds → ∃ reg, a.assigned.lookup r.reg = some reg ∧
        ∀ m i, r.start < m → m < r.stop → g.instructions[m]? = some i →
          (Names Arch.aarch64.target i reg → MovedAt Arch.aarch64.target straddling m) ∧
          (Pinned Arch.aarch64.target straddling r.reg reg → i.isCall = false) := by
  obtain ⟨g, hok⟩ := straddling_allocation
  have hreturns : ∀ i ∈ straddling.instructions, i.isReturn → i.isCall = false := by decide
  exact ⟨_, g, hok, hreturns, assignRegisters_undisturbed .aarch64 _ _ _ hok hreturns⟩

end Retarget.Machine.Function
