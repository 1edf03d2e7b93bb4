import Retarget.Proofs.Bindings

/-!
# The scan

The registers in the pool and those of the active ranges are at all times the registers that were
free at the start, in some order (`Scan.Sound.shared`).  So a range gets a register that no active
range holds, and the ranges that are no longer active ended before it starts.  `Scan.Sound.run`
follows this from range to range.  `exists_scan_of_assignRegisters` opens an allocation, and
`assignRegisters_cases` says that its scan is sound.
-/

namespace Retarget

namespace RegisterPool

def free (p : RegisterPool) : List Machine.RegId := p.primary ++ p.backup

theorem find?_perm_eraseP {regs : List Machine.RegId} {fits : Machine.RegId → Bool}
    {reg : Machine.RegId} (h : regs.find? fits = some reg) :
    regs.Perm (reg :: regs.eraseP fits) := by
  induction regs with
  | nil => simp at h
  | cons r regs ih =>
    by_cases hr : fits r
    · rw [List.find?_cons_of_pos hr] at h
      cases h
      rw [List.eraseP_cons_of_pos hr]
    · rw [List.find?_cons_of_neg hr] at h
      rw [List.eraseP_cons_of_neg hr]
      exact ((ih h).cons r).trans (List.Perm.swap reg r _)

theorem take_perm {p p' : RegisterPool} {rs : Target.Registers} {c : Machine.RegClass}
    {taken : Taken} (h : p.take rs c = some (taken, p')) : p.free.Perm (taken.reg :: p'.free) := by
  rw [take] at h
  split at h
  · next reg hreg =>
    cases h
    exact (find?_perm_eraseP hreg).append_right p.backup
  · split at h
    · next reg hreg =>
      cases h
      exact ((find?_perm_eraseP hreg).append_left p.primary).trans List.perm_middle
    · cases h

theorem release_perm {p : RegisterPool} {reg : Machine.RegId} (h : reg ∉ p.free) :
    (p.release reg).free.Perm (reg :: p.free) := by
  have hprimary : ¬ p.primary.contains reg := by
    intro hmem
    exact h (List.mem_append_left _ (by simpa using hmem))
  rw [release, if_neg hprimary, free, free, List.append_assoc]
  exact List.perm_middle

end RegisterPool

namespace Machine.Function

variable {t : Target} {f : Function} {name : String}

namespace Scan

def held (assigned : List (RegId × RegId)) (active : List LiveRange) : List RegId :=
  active.filterMap fun r => assigned.lookup r.reg

/-- What holds of a scan between the ranges it has placed and those that are left, where `bound`
are the bindings and `free` the free registers at the start. -/
structure Sound (bound : List (RegId × RegId)) (free : List RegId) (placed left : List LiveRange)
    (s : Scan) : Prop where
  bound_kept : ∀ id reg, bound.lookup id = some reg → s.assigned.lookup id = some reg
  origin : ∀ id reg, s.assigned.lookup id = some reg →
    bound.lookup id = some reg ∨ reg ∈ free ∧ ∃ r ∈ placed, r.reg = id
  total : ∀ r ∈ placed, ∃ reg, s.assigned.lookup r.reg = some reg
  shared : (s.pool.free ++ held s.assigned s.active).Perm free
  active_placed : ∀ r ∈ s.active, r ∈ placed
  ended : ∀ r ∈ placed, bound.lookup r.reg = none → r ∈ s.active ∨ ∀ r' ∈ left, r.stop < r'.start
  apart : ∀ r ∈ placed, ∀ r' ∈ placed, bound.lookup r.reg = none → bound.lookup r'.reg = none →
    r.reg ≠ r'.reg → s.assigned.lookup r.reg = s.assigned.lookup r'.reg → ¬ r.interferes r'

/-! ## Ranges that end -/

theorem foldl_release_perm {assigned : List (RegId × RegId)} {ended : List LiveRange}
    {p : RegisterPool} (h : (p.free ++ held assigned ended).Nodup) :
    (ended.foldl (fun pool r => match assigned.lookup r.reg with
      | some reg => pool.release reg
      | none => pool) p).free.Perm (p.free ++ held assigned ended) := by
  induction ended generalizing p with
  | nil => simp [held]
  | cons r ended ih =>
    rw [List.foldl_cons]
    cases hr : assigned.lookup r.reg with
    | none =>
      have hheld : held assigned (r :: ended) = held assigned ended :=
        List.filterMap_cons_none (f := fun r : LiveRange => assigned.lookup r.reg) hr
      rw [hheld] at h ⊢
      exact ih h
    | some reg =>
      have hheld : held assigned (r :: ended) = reg :: held assigned ended :=
        List.filterMap_cons_some (f := fun r : LiveRange => assigned.lookup r.reg) hr
      rw [hheld] at h ⊢
      have hout : reg ∉ p.free := fun hmem =>
        (List.nodup_append.mp h).2.2 reg hmem reg (by simp) rfl
      have hstep : ((p.release reg).free ++ held assigned ended).Perm
          (p.free ++ reg :: held assigned ended) :=
        ((RegisterPool.release_perm hout).append_right _).trans List.perm_middle.symm
      exact (ih (hstep.nodup_iff.mpr h)).trans hstep

theorem expire_shared {s : Scan} {free : List RegId} (start : Nat) (hnodup : free.Nodup)
    (h : (s.pool.free ++ held s.assigned s.active).Perm free) :
    ((s.expire start).pool.free ++ held s.assigned (s.expire start).active).Perm free := by
  rw [expire]
  generalize hparts : s.active.partition (fun r => r.stop < start) = parts
  obtain ⟨ended, active⟩ := parts
  rw [List.partition_eq_filter_filter, Prod.mk.injEq] at hparts
  obtain ⟨rfl, rfl⟩ := hparts
  have hsplit : (held s.assigned (s.active.filter fun r => r.stop < start) ++
      held s.assigned (s.active.filter fun r => !decide (r.stop < start))).Perm
      (held s.assigned s.active) := by
    rw [held, held, ← List.filterMap_append]
    exact (List.filter_append_perm _ s.active).filterMap _
  have hall := (hsplit.append_left s.pool.free).trans h
  rw [← List.append_assoc] at hall
  have hended := foldl_release_perm (List.nodup_append.mp (hall.nodup_iff.mpr hnodup)).1
  exact (hended.append_right _).trans hall

theorem mem_expire {s : Scan} {start : Nat} {r : LiveRange} :
    r ∈ (s.expire start).active ↔ r ∈ s.active ∧ start ≤ r.stop := by
  simp [expire, List.partition_eq_filter_filter]

/-! ## Ranges that are placed -/

/-- A range is skipped if it is bound, and else gets a register of the pool, once the ranges that
ended have left. -/
theorem place_cases {s s' : Scan} {r : LiveRange} (h : place t name s r = .ok s') :
    (∃ reg, s.assigned.lookup r.reg = some reg) ∧ s' = s ∨
    s.assigned.lookup r.reg = none ∧ ∃ reg, s'.assigned = (r.reg, reg) :: s.assigned ∧
      s'.active = (s.expire r.start).active ++ [r] ∧
      (s.expire r.start).pool.free.Perm (reg :: s'.pool.free) := by
  rw [place] at h
  split at h
  · next hsome =>
    cases h
    exact .inl ⟨Option.isSome_iff_exists.mp hsome, rfl⟩
  · next hnone =>
    obtain ⟨⟨taken, pool⟩, htake, h⟩ := bind_eq_ok.mp h
    rw [pure_eq_ok] at h
    subst h
    exact .inr ⟨Option.not_isSome_iff_eq_none.mp hnone, taken.reg, rfl, rfl,
      RegisterPool.take_perm (orFail_eq_ok.mp htake)⟩

variable {bound : List (RegId × RegId)} {free : List RegId} {placed left : List LiveRange}
  {s s' : Scan}

theorem Sound.skip {r : LiveRange} {reg : RegId} (h : Sound bound free placed (r :: left) s)
    (hnew : ∀ r' ∈ placed, r'.reg ≠ r.reg) (hreg : s.assigned.lookup r.reg = some reg) :
    Sound bound free (placed ++ [r]) left s := by
  have hbound : bound.lookup r.reg = some reg := by
    rcases h.origin _ _ hreg with hb | ⟨-, r', hr', he⟩
    · exact hb
    · exact absurd he (hnew r' hr')
  have hold : ∀ {r'}, r' ∈ placed ++ [r] → bound.lookup r'.reg = none → r' ∈ placed := by
    intro r' hr' hn
    rcases List.mem_append.mp hr' with hr' | hr'
    · exact hr'
    · rw [List.mem_singleton.mp hr', hbound] at hn
      cases hn
  refine ⟨h.bound_kept, fun id reg hid => ?_, fun r' hr' => ?_, h.shared,
    fun r' hr' => by simp [h.active_placed r' hr'], fun r' hr' hn => ?_,
    fun r₁ h₁ r₂ h₂ hn₁ hn₂ => h.apart r₁ (hold h₁ hn₁) r₂ (hold h₂ hn₂) hn₁ hn₂⟩
  · rcases h.origin id reg hid with hb | ⟨hmem, r', hr', he⟩
    · exact .inl hb
    · exact .inr ⟨hmem, r', by simp [hr'], he⟩
  · rcases List.mem_append.mp hr' with hr' | hr'
    · exact h.total r' hr'
    · rw [List.mem_singleton.mp hr']
      exact ⟨reg, hreg⟩
  · exact (h.ended r' (hold hr' hn) hn).imp_right fun hlt r'' hr'' => hlt r'' (by simp [hr''])

/-- A placed range on a register of the pool ended before the next range starts. -/
theorem Sound.stop_lt {r r' : LiveRange} {reg : RegId} (h : Sound bound free placed (r :: left) s)
    (hfree : free.Nodup) (hpool : reg ∈ (s.expire r.start).pool.free) (hr' : r' ∈ placed)
    (hnone : bound.lookup r'.reg = none) (hreg : s.assigned.lookup r'.reg = some reg) :
    r'.stop < r.start := by
  by_contra hlt
  have hactive : r' ∈ (s.expire r.start).active := by
    rcases h.ended r' hr' hnone with ha | hlt'
    · exact mem_expire.mpr ⟨ha, by omega⟩
    · exact absurd (hlt' r (by simp)) hlt
  have hheld : reg ∈ held s.assigned (s.expire r.start).active :=
    List.mem_filterMap.mpr ⟨r', hactive, hreg⟩
  have hnodup := (expire_shared r.start hfree h.shared).nodup_iff.mpr hfree
  exact (List.nodup_append.mp hnodup).2.2 reg hpool reg hheld rfl

/-- A range that takes a register of the pool joins the active ones. -/
theorem Sound.assign {r : LiveRange} {reg : RegId} (h : Sound bound free placed (r :: left) s)
    (hfree : free.Nodup) (hnew : ∀ r' ∈ placed, r'.reg ≠ r.reg)
    (hsorted : ∀ r' ∈ left, r.start ≤ r'.start) (hnone : s.assigned.lookup r.reg = none)
    (hassigned : s'.assigned = (r.reg, reg) :: s.assigned)
    (hactive : s'.active = (s.expire r.start).active ++ [r])
    (hpool : (s.expire r.start).pool.free.Perm (reg :: s'.pool.free)) :
    Sound bound free (placed ++ [r]) left s' := by
  have hshared := expire_shared r.start hfree h.shared
  have hmem : reg ∈ (s.expire r.start).pool.free := hpool.mem_iff.mpr (by simp)
  have hkept : ∀ r' ∈ placed, s'.assigned.lookup r'.reg = s.assigned.lookup r'.reg := by
    intro r' hr'
    rw [hassigned, List.lookup_cons, beq_false_of_ne (hnew r' hr')]
  have hself : s'.assigned.lookup r.reg = some reg := by rw [hassigned, List.lookup_cons_self]
  refine ⟨fun id old hid => ?_, fun id old hid => ?_, fun r' hr' => ?_, ?_, fun r' hr' => ?_,
    fun r' hr' hn => ?_, fun r₁ h₁ r₂ h₂ hn₁ hn₂ hne heq => ?_⟩
  · rw [hassigned]
    exact lookup_cons_of_lookup hnone (h.bound_kept id old hid)
  · rw [hassigned, List.lookup_cons] at hid
    split at hid
    · next he =>
      cases hid
      exact .inr ⟨hshared.mem_iff.mp (List.mem_append_left _ hmem), r, by simp,
        (eq_of_beq he).symm⟩
    · rcases h.origin id old hid with hb | ⟨hmem, r', hr', he⟩
      · exact .inl hb
      · exact .inr ⟨hmem, r', by simp [hr'], he⟩
  · rcases List.mem_append.mp hr' with hr' | hr'
    · rw [hkept r' hr']
      exact h.total r' hr'
    · rw [List.mem_singleton.mp hr']
      exact ⟨reg, hself⟩
  · have hold : held s'.assigned (s.expire r.start).active =
        held s.assigned (s.expire r.start).active := by
      refine List.filterMap_congr fun r' hr' => ?_
      exact hkept r' (h.active_placed r' (mem_expire.mp hr').1)
    have hone : held s'.assigned [r] = [reg] := by simp [held, hself]
    have happend : held s'.assigned s'.active =
        held s.assigned (s.expire r.start).active ++ [reg] := by
      rw [hactive, ← hold, ← hone, held, held, held, List.filterMap_append]
    rw [happend, ← List.append_assoc]
    refine (List.perm_append_singleton _ _).trans ?_
    exact (hpool.symm.append_right _).trans hshared
  · rw [hactive] at hr'
    rcases List.mem_append.mp hr' with hr' | hr'
    · simp [h.active_placed r' (mem_expire.mp hr').1]
    · simp [List.mem_singleton.mp hr']
  · rw [hactive]
    rcases List.mem_append.mp hr' with hr' | hr'
    · by_cases hlt : r'.stop < r.start
      · exact .inr fun r'' hr'' => Nat.lt_of_lt_of_le hlt (hsorted r'' hr'')
      · rcases h.ended r' hr' hn with ha | hlt'
        · exact .inl (by simp [mem_expire.mpr ⟨ha, Nat.not_lt.mp hlt⟩])
        · exact absurd (hlt' r (by simp)) hlt
    · exact .inl (by simp [List.mem_singleton.mp hr'])
  · simp only [LiveRange.interferes, Bool.and_eq_true, decide_eq_true_eq]
    rcases List.mem_append.mp h₁ with hold₁ | hr₁ <;> rcases List.mem_append.mp h₂ with hold₂ | hr₂
    · rw [hkept r₁ hold₁, hkept r₂ hold₂] at heq
      simpa [LiveRange.interferes] using h.apart r₁ hold₁ r₂ hold₂ hn₁ hn₂ hne heq
    · cases List.mem_singleton.mp hr₂
      rw [hkept r₁ hold₁, hself] at heq
      have hlt := h.stop_lt hfree hmem hold₁ hn₁ heq
      omega
    · cases List.mem_singleton.mp hr₁
      rw [hkept r₂ hold₂, hself] at heq
      have hlt := h.stop_lt hfree hmem hold₂ hn₂ heq.symm
      omega
    · rw [List.mem_singleton.mp hr₁, List.mem_singleton.mp hr₂] at hne
      exact absurd rfl hne

theorem Sound.place {r : LiveRange} (h : Sound bound free placed (r :: left) s)
    (hfree : free.Nodup) (hnew : ∀ r' ∈ placed, r'.reg ≠ r.reg)
    (hsorted : ∀ r' ∈ left, r.start ≤ r'.start) (hplace : place t name s r = .ok s') :
    Sound bound free (placed ++ [r]) left s' := by
  rcases place_cases hplace with ⟨⟨reg, hreg⟩, rfl⟩ | ⟨hnone, reg, hassigned, hactive, hpool⟩
  · exact h.skip hnew hreg
  · exact h.assign hfree hnew hsorted hnone hassigned hactive hpool

theorem Sound.run (h : Sound bound free placed left s) (hfree : free.Nodup)
    (hnodup : ((placed ++ left).map (·.reg)).Nodup)
    (hsorted : left.Pairwise fun a b => a.start ≤ b.start)
    (hrun : left.foldlM (Scan.place t name) s = .ok s') :
    Sound bound free (placed ++ left) [] s' := by
  induction left generalizing placed s with
  | nil =>
    rw [List.foldlM_nil, pure_eq_ok] at hrun
    subst hrun
    rwa [List.append_nil]
  | cons r left ih =>
    rw [List.foldlM_cons] at hrun
    obtain ⟨mid, hfirst, hrest⟩ := bind_eq_ok.mp hrun
    obtain ⟨hle, hsorted⟩ := List.pairwise_cons.mp hsorted
    have hnew : ∀ r' ∈ placed, r'.reg ≠ r.reg := by
      rw [List.map_append, List.nodup_append] at hnodup
      intro r' hr'
      exact hnodup.2.2 r'.reg (List.mem_map_of_mem hr') r.reg (by simp)
    have happend : placed ++ r :: left = (placed ++ [r]) ++ left := by simp
    rw [happend] at hnodup ⊢
    exact ih (h.place hfree hnew hle hfirst) hnodup hsorted hrest

theorem Sound.start (bound : List (RegId × RegId)) (pool : RegisterPool) (used : List RegId)
    (left : List LiveRange) :
    Sound bound pool.free [] left { assigned := bound, pool := pool, usedCalleeSaved := used } where
  bound_kept _ _ h := h
  origin _ _ h := .inl h
  total _ h := by simp at h
  shared := by simp [held]
  active_placed _ h := by simp at h
  ended _ h := by simp at h
  apart _ h := by simp at h

end Scan

/-! ## Allocation -/

/-- The registers that an allocation may hand out to the instructions of `g`, next to bindings. -/
def freePool (t : Target) (bound : List (RegId × RegId)) (g : Function) : RegisterPool :=
  RegisterPool.make t.convention.callerSaved t.convention.calleeSaved
    (bound.map (·.2) ++ g.instructions.flatMap (physicalRoots t))

theorem free_freePool (bound : List (RegId × RegId)) (g : Function) :
    (freePool t bound g).free = t.allocatable.filter fun r =>
      !(bound.map (·.2) ++ g.instructions.flatMap (physicalRoots t)).contains r := by
  rw [Target.allocatable, List.filter_append]
  rfl

theorem mem_free {bound : List (RegId × RegId)} {g : Function} {reg : RegId}
    (h : reg ∈ (freePool t bound g).free) : reg ∈ t.allocatable ∧ reg ∉ bound.map (·.2) := by
  rw [free_freePool, List.mem_filter] at h
  refine ⟨h.1, fun hmem => ?_⟩
  have hout := h.2
  rw [List.contains_iff_mem.mpr (List.mem_append_left _ hmem)] at hout
  cases hout

/-- **An allocation** binds parameters and returned values, and then scans the ranges of the
function with the moves. -/
theorem exists_scan_of_assignRegisters {a : Allocation} {g : Function}
    (h : f.assignRegisters t = .ok (a, g)) :
    ∃ params bound g' s, bindParameters t f.name 0 0 f.params = .ok params ∧
      bindReturns t f params = .ok (bound, g') ∧
      g'.liveRanges.foldlM (Scan.place t g'.name)
        { assigned := bound, pool := freePool t bound g', usedCalleeSaved := g'.usedCalleeSaved } =
        .ok s ∧
      a = ⟨s.assigned, g'.liveRanges⟩ ∧ g = { g' with usedCalleeSaved := s.usedCalleeSaved } := by
  rw [assignRegisters] at h
  obtain ⟨params, hparams, h⟩ := bind_eq_ok.mp h
  obtain ⟨⟨bound, g'⟩, hreturns, h⟩ := bind_eq_ok.mp h
  obtain ⟨s, hscan, h⟩ := bind_eq_ok.mp h
  cases pure_eq_ok.mp h
  exact ⟨params, bound, g', s, hparams, hreturns, hscan, rfl, rfl⟩

theorem assignRegisters_cases (ht : t.Regular) {a : Allocation} {g : Function}
    (h : f.assignRegisters t = .ok (a, g)) :
    ∃ params bound g' s, bindParameters t f.name 0 0 f.params = .ok params ∧
      bindReturns t f params = .ok (bound, g') ∧
      Scan.Sound bound (freePool t bound g').free g'.liveRanges [] s ∧
      a = ⟨s.assigned, g'.liveRanges⟩ ∧ g = { g' with usedCalleeSaved := s.usedCalleeSaved } := by
  obtain ⟨params, bound, g', s, hparams, hreturns, hscan, rfl, rfl⟩ :=
    exists_scan_of_assignRegisters h
  have hfree : (freePool t bound g').free.Nodup := by
    rw [free_freePool]
    exact ht.allocatable_nodup.filter _
  have hsound := (Scan.Sound.start bound (freePool t bound g') g'.usedCalleeSaved
    g'.liveRanges).run hfree g'.liveRanges_hulls.nodup g'.liveRanges_sorted hscan
  exact ⟨params, bound, g', s, hparams, hreturns, hsound, rfl, rfl⟩

end Machine.Function

end Retarget
