import Retarget.Proofs.ReturnMoves
import Retarget.Proofs.Scan

/-!
# Registers of interfering ranges

Two ranges that interfere get registers apart, unless both belong to return buffers
(`RangesApart`).  One pattern breaks this: a return hands back a value that is mentioned there for
the first time and moves it to another register than the one it is pinned to by a later return,
while its second operand, mentioned there for the last time, is pinned to that register too.  The
move makes the two ranges overlap after their registers were compared (`Straddle`).
`assignRegisters_apart_iff` says that nothing else does.
-/

namespace Retarget.Machine

namespace LiveRange

variable {params : List RegId} {is : List Instruction} {r₁ r₂ : LiveRange}

theorem start_lt_stop_iff (h₁ : IsHull params (OccursAt is) r₁)
    (h₂ : IsHull params (OccursAt is) r₂) :
    r₁.start < r₂.stop ↔ (r₁.reg ∈ params ∧ Occurs is.tail r₂.reg) ∨
      (r₁.reg ∉ params ∧ Before is r₁.reg r₂.reg) := by
  rw [occurs_tail_iff, before_iff]
  constructor
  · intro hlt
    have hstop : OccursAt is r₂.reg r₂.stop := by
      rcases h₂.stop_occ with h | ⟨-, h⟩
      · exact h
      · omega
    by_cases hp : r₁.reg ∈ params
    · exact .inl ⟨hp, r₂.stop, by omega, hstop⟩
    · exact .inr ⟨hp, r₁.start, r₂.stop, hlt, h₁.start_occ hp, hstop⟩
  · rintro (⟨hp, n, hpos, hn⟩ | ⟨-, n, m, hlt, hn, hm⟩)
    · have := (h₂.covers n hn).2
      rw [h₁.start_param hp]
      omega
    · have := (h₁.covers n hn).1
      have := (h₂.covers m hm).2
      omega

theorem Hulls.find? {occ : RegId → Nat → Prop} {ranges : List LiveRange}
    (h : Hulls params occ ranges) {r : LiveRange} (hr : r ∈ ranges) :
    ranges.find? (·.reg == r.reg) = some r := by
  have hnodup := h.nodup
  clear h
  induction ranges with
  | nil => simp at hr
  | cons s ranges ih =>
    rw [List.map_cons, List.nodup_cons] at hnodup
    rcases List.mem_cons.mp hr with rfl | hr
    · simp
    · have hne : s.reg ≠ r.reg := fun he => hnodup.1 (he ▸ List.mem_map_of_mem hr)
      rw [List.find?_cons_of_neg (by simpa using hne)]
      exact ih hr hnodup.2

end LiveRange

namespace Function

variable {t : Target} {f g : Function} {a : Allocation}

/-- The ranges of an allocation that interfere have registers apart, unless both belong to return
buffers. -/
def RangesApart (t : Target) (f : Function) (a : Allocation) : Prop :=
  ∀ r₁ ∈ a.ranges, ∀ r₂ ∈ a.ranges, r₁ ≠ r₂ → r₁.interferes r₂ →
    f.IsBuffer r₁.reg ∧ f.IsBuffer r₂.reg ∨
    ∃ reg₁ reg₂, a.assigned.lookup r₁.reg = some reg₁ ∧ a.assigned.lookup r₂.reg = some reg₂ ∧
      ¬ t.registers.overlaps reg₁ reg₂

/-- The calling convention fixes the register of an id. -/
def Pinned (t : Target) (f : Function) (id reg : RegId) : Prop :=
  ∃ params bound g, bindParameters t f.name 0 0 f.params = .ok params ∧
    bindReturns t f params = .ok (bound, g) ∧ bound.lookup id = some reg

/-- A return hands back `v`, which is no parameter and not mentioned before, and mentions `w` for
the last time.  Both are pinned to one register, but `v` is handed back in another. -/
def Straddle (t : Target) (f : Function) (v w : RegId) : Prop :=
  v ∉ f.paramIds ∧ v ≠ w ∧ ∃ before i behind ty home reg,
    f.instructions = before ++ i :: behind ∧ ¬ Occurs before v ∧ ¬ Occurs behind w ∧
    returned? i = some (v, ty) ∧ w ∈ otherIds i ∧ resultRoot? t ty = some home ∧ home ≠ reg ∧
    Pinned t f v reg ∧ Pinned t f w reg

/-! ## Bound registers -/

section bound

variable {params bound : List (RegId × RegId)}

theorem root_of_bound (ht : t.Regular) (hparams : bindParameters t f.name 0 0 f.params = .ok params)
    (hreturns : bindReturns t f params = .ok (bound, g)) {id reg : RegId}
    (h : bound.lookup id = some reg) : t.registers.root reg = reg := by
  obtain ⟨plan, hplan, -⟩ := bindReturns_plan hreturns
  rcases hplan.lookup_new h with hold | ⟨i, ty, -, -, hreg⟩
  · obtain ⟨p, -, -, ⟨-, rfl⟩ | hmem⟩ := mem_bindParameters hparams (mem_of_lookup_eq_some hold)
    · exact ht.flat.root_root _
    · obtain ⟨r, -, rfl⟩ := List.mem_map.mp hmem
      exact ht.flat.root_root _
  · obtain ⟨r, -, rfl⟩ := Option.map_eq_some_iff.mp hreg
    exact ht.flat.root_root _

/-- Moves before returns bring a bound range in front of another one on its register only in a
straddle. -/
theorem straddle_of_start_lt (ht : t.Regular)
    (hparams : bindParameters t f.name 0 0 f.params = .ok params)
    (hreturns : bindReturns t f params = .ok (bound, g)) {r₁ r₂ : LiveRange} {reg : RegId}
    (h₁ : bound.lookup r₁.reg = some reg) (h₂ : bound.lookup r₂.reg = some reg)
    (hne : r₁.reg ≠ r₂.reg)
    (hafter : (r₁.reg ∈ f.paramIds ∧ Occurs g.instructions.tail r₂.reg) ∨
      (r₁.reg ∉ f.paramIds ∧ Before g.instructions r₁.reg r₂.reg))
    (hbefore : ¬ ((r₁.reg ∈ f.paramIds ∧ Occurs f.instructions.tail r₂.reg) ∨
      (r₁.reg ∉ f.paramIds ∧ Before f.instructions r₁.reg r₂.reg))) :
    f.IsBuffer r₁.reg ∧ f.IsBuffer r₂.reg ∨ Straddle t f r₁.reg r₂.reg := by
  obtain ⟨plan, hplan, hfst, hcode, -⟩ := bindReturns_plan hreturns
  have hmovable := hplan.movable
  rw [hcode] at hafter
  rw [← hfst] at hbefore
  rcases hafter with ⟨hp, hocc⟩ | ⟨hp, hbef⟩
  · left
    rcases Plan.occurs_tail_code hmovable hocc with hocc | ⟨i, home, rest, rfl⟩
    · exact absurd (.inl ⟨hp, hocc⟩) hbefore
    · -- the first instruction has a move, so an id pinned by a return is mentioned behind it
      rcases hplan.lookup_new h₂ with hold | ⟨i', ty, hmem, hret, -⟩
      · obtain ⟨reg', hreg'⟩ : ∃ reg', params.lookup r₁.reg = some reg' := by
          obtain ⟨p, hpm, hpid⟩ := List.mem_map.mp hp
          exact Option.isSome_iff_exists.mp (hpid ▸ isSome_lookup_bindParameters hparams hpm)
        have heq : reg' = reg := by simpa [hplan.lookup_mono hreg'] using h₁
        exact bindParameters_apart ht hparams hne (heq ▸ hreg') hold
      · have hrest : (i', none) ∈ rest := by simpa using hmem
        refine absurd (.inl ⟨hp, i', List.mem_map_of_mem (f := Prod.fst) hrest, ?_⟩) hbefore
        rw [ids_of_returned? hret]
        simp
  · right
    rcases Plan.before_code hmovable hbef with hbef | ⟨i, home, ty, hmem, hret, hw⟩
    · exact absurd (.inr ⟨hp, hbef⟩) hbefore
    · obtain ⟨plan₁, plan₂, rfl⟩ := List.append_of_mem hmem
      rw [List.map_append, List.map_cons] at hfst hbefore
      have hids := ids_of_returned? hret
      have hno : ¬ Before (plan₁.map (·.1) ++ i :: plan₂.map (·.1)) r₁.reg r₂.reg :=
        fun hb => hbefore (.inr ⟨hp, hb⟩)
      rw [before_append, Before] at hno
      have hfirst : ¬ Occurs (plan₁.map (·.1)) r₁.reg := fun ho =>
        hno (.inr (.inl ⟨ho, i, by simp, by rw [hids]; simp [hw]⟩))
      have hlast : ¬ Occurs (plan₂.map (·.1)) r₂.reg := fun ho =>
        hno (.inr (.inr (.inl ⟨by rw [hids]; simp, ho⟩)))
      obtain ⟨id, ty', hret', hhome, hother⟩ := hplan.moved_elsewhere hmem
      rw [hret] at hret'
      cases hret'
      refine ⟨hp, hne, _, i, _, ty, home, reg, hfst.symm, hfirst, hlast, hret, hw, hhome, ?_,
        ⟨params, bound, g, hparams, hreturns, h₁⟩, ⟨params, bound, g, hparams, hreturns, h₂⟩⟩
      rintro rfl
      exact hother h₁

theorem occurs_bindReturns (hreturns : bindReturns t f params = .ok (bound, g)) {id : RegId} :
    Occurs g.instructions id ↔ Occurs f.instructions id := by
  obtain ⟨plan, hplan, hfst, hcode, -⟩ := bindReturns_plan hreturns
  rw [hcode, Plan.occurs_code hplan.movable, hfst]

theorem paramIds_bindReturns (hreturns : bindReturns t f params = .ok (bound, g)) :
    g.paramIds = f.paramIds := by
  obtain ⟨plan, -, -, -, hg⟩ := bindReturns_plan hreturns
  rw [hg]
  rfl

/-- Every range with the moves in place comes from one without them. -/
theorem exists_range_before (hreturns : bindReturns t f params = .ok (bound, g)) {r : LiveRange}
    (hr : r ∈ g.liveRanges) : ∃ r' ∈ f.liveRanges, r'.reg = r.reg := by
  have hmem := (g.liveRanges_hulls.mem_iff r.reg).mp (List.mem_map_of_mem hr)
  rw [← occurs_iff, occurs_bindReturns hreturns, paramIds_bindReturns hreturns, occurs_iff] at hmem
  exact List.mem_map.mp ((f.liveRanges_hulls.mem_iff r.reg).mpr hmem)

theorem bound_overlap_cases (ht : t.Regular)
    (hparams : bindParameters t f.name 0 0 f.params = .ok params)
    (hreturns : bindReturns t f params = .ok (bound, g)) {r₁ r₂ : LiveRange} {reg : RegId}
    (hr₁ : r₁ ∈ g.liveRanges) (hr₂ : r₂ ∈ g.liveRanges) (hne : r₁.reg ≠ r₂.reg)
    (hint : r₁.interferes r₂) (h₁ : bound.lookup r₁.reg = some reg)
    (h₂ : bound.lookup r₂.reg = some reg) :
    f.IsBuffer r₁.reg ∧ f.IsBuffer r₂.reg ∨ Straddle t f r₁.reg r₂.reg ∨
      Straddle t f r₂.reg r₁.reg := by
  obtain ⟨plan, hplan, -⟩ := bindReturns_plan hreturns
  have happart : KeepsApart (fun v w => f.IsBuffer v ∧ f.IsBuffer w) f.liveRanges bound :=
    hplan.keepsApart fun v w reg hvw hv hw => .inl (bindParameters_apart ht hparams hvw hv hw)
  rcases happart _ _ reg hne h₁ h₂ with hbuffers | hbefore
  · exact .inl hbuffers
  · obtain ⟨p₁, hp₁, he₁⟩ := exists_range_before hreturns hr₁
    obtain ⟨p₂, hp₂, he₂⟩ := exists_range_before hreturns hr₂
    have hp := paramIds_bindReturns hreturns
    have hno := hbefore p₁ p₂ (he₁ ▸ f.liveRanges_hulls.find? hp₁)
      (he₂ ▸ f.liveRanges_hulls.find? hp₂)
    simp only [LiveRange.interferes, Bool.and_eq_true, decide_eq_true_eq] at hint hno
    have hq₁ := f.liveRanges_hulls.hull p₁ hp₁
    have hq₂ := f.liveRanges_hulls.hull p₂ hp₂
    have hull₁ := g.liveRanges_hulls.hull r₁ hr₁
    have hull₂ := g.liveRanges_hulls.hull r₂ hr₂
    rw [LiveRange.start_lt_stop_iff hq₁ hq₂, LiveRange.start_lt_stop_iff hq₂ hq₁, he₁, he₂,
      not_and_or] at hno
    rw [LiveRange.start_lt_stop_iff hull₁ hull₂, LiveRange.start_lt_stop_iff hull₂ hull₁, hp]
      at hint
    rcases hno with hno | hno
    · exact (straddle_of_start_lt ht hparams hreturns h₁ h₂ hne hint.1 hno).imp_right .inl
    · exact (straddle_of_start_lt ht hparams hreturns h₂ h₁ hne.symm hint.2 hno).imp And.symm .inr

end bound

theorem root_of_assigned (ht : t.Regular) (h : f.assignRegisters t = .ok (a, g)) {id reg : RegId}
    (hid : a.assigned.lookup id = some reg) : t.registers.root reg = reg := by
  obtain ⟨params, bound, g', s, hparams, hreturns, hsound, rfl, -⟩ := assignRegisters_cases ht h
  rcases hsound.origin id reg hid with hb | ⟨hfree, -⟩
  · exact root_of_bound ht hparams hreturns hb
  · exact ht.root_allocatable reg (mem_free hfree).1

/-- Two ranges with registers that overlap do not interfere, or belong to return buffers or to a
straddle. -/
theorem overlap_cases (ht : t.Regular) (h : f.assignRegisters t = .ok (a, g)) {r₁ r₂ : LiveRange}
    (hr₁ : r₁ ∈ a.ranges) (hr₂ : r₂ ∈ a.ranges) (hne : r₁.reg ≠ r₂.reg) (hint : r₁.interferes r₂)
    {reg₁ reg₂ : RegId} (h₁ : a.assigned.lookup r₁.reg = some reg₁)
    (h₂ : a.assigned.lookup r₂.reg = some reg₂) (hover : t.registers.overlaps reg₁ reg₂) :
    f.IsBuffer r₁.reg ∧ f.IsBuffer r₂.reg ∨ Straddle t f r₁.reg r₂.reg ∨
      Straddle t f r₂.reg r₁.reg := by
  have heq : reg₁ = reg₂ := by
    simpa [Target.Registers.overlaps, root_of_assigned ht h h₁, root_of_assigned ht h h₂]
      using hover
  subst heq
  obtain ⟨params, bound, g', s, hparams, hreturns, hsound, rfl, -⟩ := assignRegisters_cases ht h
  have hmixed : ∀ {id other}, bound.lookup id = some reg₁ → bound.lookup other = none →
      s.assigned.lookup other = some reg₁ → False := by
    intro id other hid hnone hother
    rcases hsound.origin other reg₁ hother with hb | ⟨hfree, -⟩
    · rw [hnone] at hb
      cases hb
    · exact (mem_free hfree).2 (List.mem_map_of_mem (f := Prod.snd) (mem_of_lookup_eq_some hid))
  have hold : ∀ {id reg}, bound.lookup id = some reg → s.assigned.lookup id = some reg₁ →
      reg = reg₁ := by
    intro id reg hid hs
    simpa [hsound.bound_kept id reg hid] using hs
  cases hb₁ : bound.lookup r₁.reg with
  | none =>
    cases hb₂ : bound.lookup r₂.reg with
    | none => exact absurd hint (hsound.apart r₁ hr₁ r₂ hr₂ hb₁ hb₂ hne (h₁.trans h₂.symm))
    | some reg => exact (hmixed (hold hb₂ h₂ ▸ hb₂) hb₁ h₁).elim
  | some reg =>
    cases hold hb₁ h₁
    cases hb₂ : bound.lookup r₂.reg with
    | none => exact (hmixed hb₁ hb₂ h₂).elim
    | some reg =>
      cases hold hb₂ h₂
      exact bound_overlap_cases ht hparams hreturns hr₁ hr₂ hne hint hb₁ hb₂

/-! ## Straddles -/

theorem not_straddle (h : ∀ i ∈ f.instructions, i.isReturn → i.operands.length ≤ 1) (v w : RegId) :
    ¬ Straddle t f v w := by
  rintro ⟨-, -, before, i, behind, ty, -, -, hsplit, -, -, hret, hw, -⟩
  obtain ⟨hisReturn, value, rest, hops, -⟩ := returned?_eq_some hret
  have hone := h i (by simp [hsplit]) hisReturn
  rw [hops, List.length_cons] at hone
  have hnil : rest = [] := List.eq_nil_of_length_eq_zero (by omega)
  simp [otherIds, hops, hnil] at hw

theorem occurs_tail_of_before {is : List Instruction} {v w : RegId} (h : Before is v w) :
    Occurs is.tail w := by
  obtain ⟨n, m, hlt, -, hm⟩ := before_iff.mp h
  exact occurs_tail_iff.mpr ⟨m, by omega, hm⟩

/-- In the code with the moves, the two ids of a straddle come one before the other in both
orders. -/
theorem Straddle.before {params bound : List (RegId × RegId)} {v w : RegId}
    (hparams : bindParameters t f.name 0 0 f.params = .ok params)
    (hreturns : bindReturns t f params = .ok (bound, g)) (h : Straddle t f v w) :
    Before g.instructions v w ∧ Before g.instructions w v ∧
      ∃ reg, bound.lookup v = some reg ∧ bound.lookup w = some reg := by
  obtain ⟨hp, -, before, i, behind, ty, home, reg, hsplit, hfirst, hlast, hret, hw, hhome, hne,
    ⟨params', bound', g', hparams', hreturns', hv⟩, ⟨_, _, _, hparams'', hreturns'', hw'⟩⟩ := h
  cases hparams.symm.trans hparams'
  cases hreturns.symm.trans hreturns'
  cases hparams.symm.trans hparams''
  cases hreturns.symm.trans hreturns''
  obtain ⟨plan, hplan, hfst, hcode, -⟩ := bindReturns_plan hreturns
  have hmovable := hplan.movable
  rw [hsplit] at hfst
  obtain ⟨plan₁, rest, rfl, hfst₁, hrest⟩ := List.map_eq_append_iff.mp hfst
  obtain ⟨⟨i', home'⟩, plan₂, rfl, rfl, hfst₂⟩ := List.map_eq_cons_iff.mp hrest
  have hids := ids_of_returned? hret
  have hmoved : home' = some home := by
    refine hplan.moved_of_lookup_ne (by simp) hret hhome ?_ ?_
    · have hocc : ∃ n, OccursAt f.instructions v n := by
        refine occurs_iff.mp ⟨i', by simp [hsplit], ?_⟩
        rw [hids]
        simp
      obtain ⟨r, hr, rfl⟩ :=
        List.mem_map.mp ((f.liveRanges_hulls.mem_iff v).mpr (.inr hocc))
      rw [f.liveRanges_hulls.find? hr]
      simp
    · rw [hv]
      simpa using Ne.symm hne
  subst hmoved
  -- the return that pins `v` comes behind the one that moves it
  have hbehind : Occurs behind v := by
    rcases hplan.lookup_new hv with hold | ⟨j, ty', hmem, hret', -⟩
    · exact absurd (mem_paramIds_of_lookup hparams hold) hp
    · have hj : v ∈ j.ids := by
        rw [ids_of_returned? hret']
        simp
      rcases List.mem_append.mp hmem with hmem | hmem
      · exact absurd ⟨j, hfst₁ ▸ List.mem_map_of_mem (f := Prod.fst) hmem, hj⟩ hfirst
      · have hmem : (j, none) ∈ plan₂ := by simpa using hmem
        exact ⟨j, hfst₂ ▸ List.mem_map_of_mem (f := Prod.fst) hmem, hj⟩
  have hmov : Plan.Movable [(i', some home)] := fun j reg hmem => hmovable j reg (by simp_all)
  have hmov₂ : Plan.Movable plan₂ := fun j reg hmem => hmovable j reg (by simp [hmem])
  have happend : g.instructions =
      Plan.code t plan₁ ++ (moveReturn t i' (some home) ++ Plan.code t plan₂) := by
    rw [hcode, Plan.code, List.flatMap_append, List.flatMap_cons, Plan.code, Plan.code]
  rw [happend]
  refine ⟨?_, ?_, reg, hv, hw'⟩
  · refine before_append.mpr (.inr (.inr (before_append.mpr (.inl ?_))))
    exact (Plan.before_moveReturn hmov).mpr ⟨home, ty, rfl, hret, hw⟩
  · refine before_append.mpr (.inr (.inr (before_append.mpr (.inr (.inl ⟨?_, ?_⟩)))))
    · rw [Plan.occurs_moveReturn hmov, hids]
      simp [hw]
    · rwa [Plan.occurs_code hmov₂, hfst₂]

theorem Straddle.not_rangesApart (ht : t.Regular) (h : f.assignRegisters t = .ok (a, g))
    {v w : RegId} (hs : Straddle t f v w) : ¬ RangesApart t f a := by
  obtain ⟨params, bound, g', s, hparams, hreturns, hsound, rfl, -⟩ := assignRegisters_cases ht h
  obtain ⟨hvw, hwv, reg, hv, hw⟩ := hs.before hparams hreturns
  obtain ⟨hp, hne, -⟩ := hs
  have hocc : ∀ {x y}, Before g'.instructions x y → ∃ r ∈ g'.liveRanges, r.reg = y := by
    intro x y hb
    obtain ⟨_, m, -, -, hm⟩ := before_iff.mp hb
    exact List.mem_map.mp ((g'.liveRanges_hulls.mem_iff y).mpr (.inr ⟨m, hm⟩))
  obtain ⟨r₁, hr₁, rfl⟩ := hocc hwv
  obtain ⟨r₂, hr₂, rfl⟩ := hocc hvw
  have hull₁ := g'.liveRanges_hulls.hull r₁ hr₁
  have hull₂ := g'.liveRanges_hulls.hull r₂ hr₂
  have hlt : r₁.start < r₂.stop := by
    rw [LiveRange.start_lt_stop_iff hull₁ hull₂, paramIds_bindReturns hreturns]
    exact .inr ⟨hp, hvw⟩
  have hlt' : r₂.start < r₁.stop := by
    rw [LiveRange.start_lt_stop_iff hull₂ hull₁]
    by_cases hpw : r₂.reg ∈ g'.paramIds
    · exact .inl ⟨hpw, occurs_tail_of_before hwv⟩
    · exact .inr ⟨hpw, hwv⟩
  intro happart
  rcases happart r₁ hr₁ r₂ hr₂ (fun he => hne (by rw [he]))
    (by simp [LiveRange.interferes, hlt, hlt']) with ⟨⟨p, hmem, hid, -⟩, -⟩ | ⟨_, _, h₁, h₂, hno⟩
  · exact hp (List.mem_map.mpr ⟨p, hmem, hid⟩)
  · cases (hsound.bound_kept _ _ hv).symm.trans h₁
    cases (hsound.bound_kept _ _ hw).symm.trans h₂
    simp [Target.Registers.overlaps] at hno

/-! ## Allocation -/

theorem assigned_total (ht : t.Regular) (h : f.assignRegisters t = .ok (a, g)) :
    ∀ r ∈ a.ranges, ∃ reg, a.assigned.lookup r.reg = some reg := by
  obtain ⟨_, _, _, s, -, -, hsound, rfl, -⟩ := assignRegisters_cases ht h
  exact hsound.total

/-- **Ranges that interfere are apart but for straddles**: every range has a register, and the
ranges that interfere have registers apart exactly if the function has no straddle. -/
theorem assignRegisters_apart_iff (arch : Arch) (f g : Function) (a : Allocation)
    (h : f.assignRegisters arch.target = .ok (a, g)) :
    (∀ r ∈ a.ranges, ∃ reg, a.assigned.lookup r.reg = some reg) ∧
      (RangesApart arch.target f a ↔ ∀ v w, ¬ Straddle arch.target f v w) := by
  have ht := arch.regular
  have htotal := assigned_total ht h
  refine ⟨htotal, fun happart v w hs => hs.not_rangesApart ht h happart, ?_⟩
  intro hno r₁ hr₁ r₂ hr₂ hne hint
  have hreg : r₁.reg ≠ r₂.reg := by
    intro he
    obtain ⟨_, _, g', s, -, -, -, rfl, -⟩ := assignRegisters_cases ht h
    have h₁ := g'.liveRanges_hulls.find? hr₁
    rw [he, g'.liveRanges_hulls.find? hr₂, Option.some.injEq] at h₁
    exact hne h₁.symm
  obtain ⟨reg₁, h₁⟩ := htotal r₁ hr₁
  obtain ⟨reg₂, h₂⟩ := htotal r₂ hr₂
  by_cases hover : arch.target.registers.overlaps reg₁ reg₂
  · rcases overlap_cases ht h hr₁ hr₂ hreg hint h₁ h₂ hover with hbuffers | hs | hs
    · exact .inl hbuffers
    · exact absurd hs (hno _ _)
    · exact absurd hs (hno _ _)
  · exact .inr ⟨reg₁, reg₂, h₁, h₂, hover⟩

/-- A function with a straddle: its first return moves `%vr1` to a floating-point register, its
second one pins `%vr1` to the register of the parameter. -/
def straddling : Function where
  name := "f"
  params := [⟨0, .integer 64, false, false⟩]
  nextId := 4
  blocks := [
    ⟨"a", [.generic .mov [.virtualReg 2 (.integer 64), .parameter 0 (.integer 64)],
      .generic .ret [.virtualReg 1 (.float 64), .parameter 0 (.integer 64)]]⟩,
    ⟨"b", [.generic .movf [.physicalReg 94 (.float 64), .virtualReg 3 (.float 64)],
      .generic .ret [.virtualReg 1 (.integer 64)]]⟩]

/-- The parameter and `%vr1` end up in register 31, with the ranges 0 to 2 and 1 to 4. -/
theorem straddling_allocation : ∃ g, straddling.assignRegisters Arch.aarch64.target =
    .ok (⟨[(3, 33), (2, 32), (1, 31), (0, 31)],
      [⟨2, none, 0, 0⟩, ⟨0, none, 0, 2⟩, ⟨1, none, 1, 4⟩, ⟨3, none, 3, 3⟩]⟩, g) := by
  have hrun : (straddling.assignRegisters Arch.aarch64.target).map
      (fun x => (x.1.assigned, x.1.ranges)) = .ok ([(3, 33), (2, 32), (1, 31), (0, 31)],
        [⟨2, none, 0, 0⟩, ⟨0, none, 0, 2⟩, ⟨1, none, 1, 4⟩, ⟨3, none, 3, 3⟩]) := by
    decide +kernel
  obtain ⟨⟨⟨assigned, ranges⟩, g⟩, hok, heq⟩ := map_eq_ok.mp hrun
  cases heq
  exact ⟨g, hok⟩

theorem straddling_apart_iff : ∃ a g,
    straddling.assignRegisters Arch.aarch64.target = .ok (a, g) ∧
      (∀ r ∈ a.ranges, ∃ reg, a.assigned.lookup r.reg = some reg) ∧
      (RangesApart Arch.aarch64.target straddling a ↔
        ∀ v w, ¬ Straddle Arch.aarch64.target straddling v w) := by
  obtain ⟨g, hok⟩ := straddling_allocation
  exact ⟨_, g, hok, assignRegisters_apart_iff .aarch64 _ _ _ hok⟩

theorem straddling_not_apart : ∃ a g,
    straddling.assignRegisters Arch.aarch64.target = .ok (a, g) ∧
      ¬ RangesApart Arch.aarch64.target straddling a := by
  obtain ⟨g, hok⟩ := straddling_allocation
  refine ⟨_, g, hok, fun happart => ?_⟩
  rcases happart ⟨0, none, 0, 2⟩ (by decide) ⟨1, none, 1, 4⟩ (by decide) (by decide) (by decide)
    with ⟨⟨p, hp, -, hbuffer⟩, -⟩ | ⟨_, _, h₁, h₂, hno⟩
  · cases List.mem_singleton.mp hp
    cases hbuffer
  · cases h₁
    cases h₂
    exact hno (beq_self_eq_true _)

end Function

end Retarget.Machine
