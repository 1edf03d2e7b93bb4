import Retarget.Proofs.Aliasing
import Retarget.Proofs.ControlFlow

/-!
# Linear ranges and control flow

Ranges follow the order of the instructions and know nothing of jumps back.  They hold what is live
as long as no id is read before it is written, and the ids that are live across a jump back are
mentioned before its target and again at or behind it (`Enclosed`).  Such ids never share a register
while they are live (`live_enclosed_apart`).  Without that, the second of two ids that a loop keeps
alive may take the register of the first (`looping_clobbers`).
-/

namespace Retarget.Machine.Function

variable {t : Target} {f g : Function} {a : Allocation} {id : RegId} {p : Nat}

/-- Only a parameter is live at the start, and an id that is live across a jump back is mentioned
before the target, unless it is a parameter, and again at the jump or behind it. -/
structure Enclosed (f : Function) (id : RegId) : Prop where
  entry : LiveAt f id 0 → id ∈ f.paramIds
  head : ∀ {q p}, Reachable f q → p ∈ f.successors q → p ≤ q → LiveAt f id p →
    id ∈ f.paramIds ∨ ∃ n < p, OccursAt f.instructions id n
  latch : ∀ {q p}, Reachable f q → p ∈ f.successors q → p ≤ q → LiveAt f id p →
    ∃ n ≥ q, OccursAt f.instructions id n

/-- The range holds a value when control is at the point. -/
def HeldAt (f : Function) (r : LiveRange) (p : Nat) : Prop :=
  (r.reg ∈ f.paramIds ∨ r.start < p) ∧ p ≤ r.stop

theorem Enclosed.occurs_before (h : Enclosed f id) (hp : Reachable f p) (hlive : LiveAt f id p) :
    id ∈ f.paramIds ∨ ∃ n < p, OccursAt f.instructions id n := by
  induction hp with
  | entry => exact .inl (h.entry hlive)
  | @step q p hq hedge ih =>
    by_cases hback : p ≤ q
    · exact h.head hq hedge hback hlive
    · obtain ⟨i, hi⟩ := exists_of_mem_successors hedge
      by_cases hwrite : id ∈ i.writtenIds
      · exact .inr ⟨q, by omega, i, hi, Instruction.writtenIds_subset hwrite⟩
      · rcases ih (.pass hi hwrite hedge hlive) with hparam | ⟨n, hn, hocc⟩
        · exact .inl hparam
        · exact .inr ⟨n, by omega, hocc⟩

theorem Enclosed.occurs_from (h : Enclosed f id) (hp : Reachable f p) (hlive : LiveAt f id p) :
    ∃ n ≥ p, OccursAt f.instructions id n := by
  induction hlive with
  | @read n i hi hread => exact ⟨n, Nat.le_refl n, i, hi, Instruction.readIds_subset hread⟩
  | @pass n m i hi hwrite hedge hlive ih =>
    by_cases hback : m ≤ n
    · exact h.latch hp hedge hback hlive
    · obtain ⟨k, hk, hocc⟩ := ih (.step hp hedge)
      exact ⟨k, by omega, hocc⟩

/-- **Ranges hold what is live** of enclosed ids. -/
theorem Enclosed.heldAt (h : Enclosed f id) (hp : Reachable f p) (hlive : LiveAt f id p) :
    ∃ r ∈ f.liveRanges, r.reg = id ∧ HeldAt f r p := by
  obtain ⟨m, hm, hocc⟩ := h.occurs_from hp hlive
  obtain ⟨r, hr, rfl⟩ := List.mem_map.mp ((f.liveRanges_hulls.mem_iff id).mpr (.inr ⟨m, hocc⟩))
  have hull := f.liveRanges_hulls.hull r hr
  refine ⟨r, hr, rfl, ?_, Nat.le_trans hm (hull.covers m hocc).2⟩
  rcases h.occurs_before hp hlive with hparam | ⟨n, hn, hocc'⟩
  · exact .inl hparam
  · exact .inr (Nat.lt_of_le_of_lt (hull.covers n hocc').1 hn)

/-! ## Registers of held ranges -/

theorem interferes_of_heldAt {r₁ r₂ : LiveRange} (h₁ : HeldAt f r₁ p) (h₂ : HeldAt f r₂ p)
    (hr₁ : r₁ ∈ f.liveRanges) (hr₂ : r₂ ∈ f.liveRanges)
    (hparam : ¬ (r₁.reg ∈ f.paramIds ∧ r₂.reg ∈ f.paramIds)) : r₁.interferes r₂ := by
  have hzero : ∀ r ∈ f.liveRanges, r.reg ∈ f.paramIds → r.start = 0 :=
    fun r hr => (f.liveRanges_hulls.hull r hr).start_param
  obtain ⟨hstart₁, hstop₁⟩ := h₁
  obtain ⟨hstart₂, hstop₂⟩ := h₂
  simp only [LiveRange.interferes, Bool.and_eq_true, decide_eq_true_eq]
  by_cases hp₁ : r₁.reg ∈ f.paramIds
  · have hlt := hstart₂.resolve_left fun hp₂ => hparam ⟨hp₁, hp₂⟩
    have := hzero r₁ hr₁ hp₁
    omega
  · have hlt := hstart₁.resolve_left hp₁
    by_cases hp₂ : r₂.reg ∈ f.paramIds
    · have := hzero r₂ hr₂ hp₂
      omega
    · have := hstart₂.resolve_left hp₂
      omega

theorem not_both_buffers (h : (f.params.filter (·.isReturnBuffer)).length ≤ 1) {v w : RegId}
    (hne : v ≠ w) : ¬ (f.IsBuffer v ∧ f.IsBuffer w) := by
  rintro ⟨⟨p, hp, rfl, hbuffer⟩, ⟨q, hq, rfl, hbuffer'⟩⟩
  have hp' : p ∈ f.params.filter (·.isReturnBuffer) := List.mem_filter.mpr ⟨hp, hbuffer⟩
  have hq' : q ∈ f.params.filter (·.isReturnBuffer) := List.mem_filter.mpr ⟨hq, hbuffer'⟩
  generalize f.params.filter (·.isReturnBuffer) = buffers at h hp' hq'
  match buffers with
  | [] => simp at hp'
  | [x] =>
    rw [List.mem_singleton] at hp' hq'
    exact hne (by rw [hp', hq'])
  | _ :: _ :: _ => simp at h

theorem param_overlap (ht : t.Regular) (h : f.assignRegisters t = .ok (a, g)) {v w reg₁ reg₂ : RegId}
    (hne : v ≠ w) (hv : v ∈ f.paramIds) (hw : w ∈ f.paramIds) (h₁ : a.assigned.lookup v = some reg₁)
    (h₂ : a.assigned.lookup w = some reg₂) (hover : t.registers.overlaps reg₁ reg₂) :
    f.IsBuffer v ∧ f.IsBuffer w := by
  obtain ⟨params, bound, g', s, hparams, hreturns, hsound, rfl, -⟩ := assignRegisters_cases ht h
  obtain ⟨plan, hplan, -⟩ := bindReturns_plan hreturns
  have hbound : ∀ {id reg}, id ∈ f.paramIds → s.assigned.lookup id = some reg →
      params.lookup id = some reg ∧ t.registers.root reg = reg := by
    intro id reg hid hs
    obtain ⟨p, hp, rfl⟩ := List.mem_map.mp hid
    obtain ⟨reg', hreg'⟩ :=
      Option.isSome_iff_exists.mp (isSome_lookup_bindParameters hparams hp)
    have hb := hplan.lookup_mono hreg'
    cases (hsound.bound_kept _ _ hb).symm.trans hs
    exact ⟨hreg', root_of_bound ht hparams hreturns hb⟩
  obtain ⟨hp₁, hroot₁⟩ := hbound hv h₁
  obtain ⟨hp₂, hroot₂⟩ := hbound hw h₂
  have heq : reg₁ = reg₂ := by
    simpa [Target.Registers.overlaps, hroot₁, hroot₂] using hover
  exact bindParameters_apart ht hparams hne hp₁ (heq ▸ hp₂)

theorem ranges_assignRegisters (ht : t.Regular) (h : f.assignRegisters t = .ok (a, g)) :
    a.ranges = g.liveRanges ∧ g.paramIds = f.paramIds := by
  obtain ⟨_, _, g', _, -, hreturns, -, rfl, rfl⟩ := assignRegisters_cases ht h
  have hparams := paramIds_bindReturns hreturns
  exact ⟨rfl, hparams⟩

/-- Two ids whose ranges hold a value at one point have registers apart, but for return buffers and
straddles. -/
theorem overlap_of_heldAt (ht : t.Regular) (h : f.assignRegisters t = .ok (a, g))
    {r₁ r₂ : LiveRange} (hr₁ : r₁ ∈ g.liveRanges) (hr₂ : r₂ ∈ g.liveRanges)
    (hne : r₁.reg ≠ r₂.reg) (hheld₁ : HeldAt g r₁ p) (hheld₂ : HeldAt g r₂ p) {reg₁ reg₂ : RegId}
    (h₁ : a.assigned.lookup r₁.reg = some reg₁) (h₂ : a.assigned.lookup r₂.reg = some reg₂)
    (hover : t.registers.overlaps reg₁ reg₂) :
    f.IsBuffer r₁.reg ∧ f.IsBuffer r₂.reg ∨ Straddle t f r₁.reg r₂.reg ∨
      Straddle t f r₂.reg r₁.reg := by
  obtain ⟨hranges, hparams⟩ := ranges_assignRegisters ht h
  by_cases hboth : r₁.reg ∈ g.paramIds ∧ r₂.reg ∈ g.paramIds
  · rw [hparams] at hboth
    exact .inl (param_overlap ht h hne hboth.1 hboth.2 h₁ h₂ hover)
  · have hint := interferes_of_heldAt hheld₁ hheld₂ hr₁ hr₂ hboth
    exact overlap_cases ht h (hranges ▸ hr₁) (hranges ▸ hr₂) hne hint h₁ h₂ hover

/-- **Registers of live ids**: two enclosed ids that are both live at a point that control can get
to have registers apart, if the function has at most one return buffer and they do not straddle a
return. -/
theorem live_enclosed_apart (arch : Arch) (f g : Function) (a : Allocation)
    (h : f.assignRegisters arch.target = .ok (a, g))
    (hbuffers : (f.params.filter (·.isReturnBuffer)).length ≤ 1) (v w : RegId) (hne : v ≠ w)
    (hv : Enclosed g v) (hw : Enclosed g w) (hvw : ¬ Straddle arch.target f v w)
    (hwv : ¬ Straddle arch.target f w v) (p : Nat) (hp : Reachable g p) (hlive₁ : LiveAt g v p)
    (hlive₂ : LiveAt g w p) :
    ∃ reg₁ reg₂, a.assigned.lookup v = some reg₁ ∧ a.assigned.lookup w = some reg₂ ∧
      ¬ arch.target.registers.overlaps reg₁ reg₂ := by
  have ht := arch.regular
  have htotal := assigned_total ht h
  obtain ⟨hranges, -⟩ := ranges_assignRegisters ht h
  obtain ⟨r₁, hr₁, rfl, hheld₁⟩ := hv.heldAt hp hlive₁
  obtain ⟨r₂, hr₂, rfl, hheld₂⟩ := hw.heldAt hp hlive₂
  obtain ⟨reg₁, h₁⟩ := htotal r₁ (hranges ▸ hr₁)
  obtain ⟨reg₂, h₂⟩ := htotal r₂ (hranges ▸ hr₂)
  refine ⟨reg₁, reg₂, h₁, h₂, fun hover => ?_⟩
  rcases overlap_of_heldAt ht h hr₁ hr₂ hne hheld₁ hheld₂ h₁ h₂ hover with hb | hs | hs
  · exact not_both_buffers hbuffers hne hb
  · exact hvw hs
  · exact hwv hs

/-! ## Loops -/

/-- A loop around a value that is computed in it and handed back behind it.  The parameter is read
at the top of the loop, and `rest` stands between the loop and the return. -/
def loopWith (rest : List Instruction) (result : RegId) : Function where
  name := "f"
  params := [⟨0, .integer 64, false, false⟩]
  nextId := 4
  blocks := [
    ⟨"loop", [
      .generic .add [.virtualReg 1 (.integer 64), .parameter 0 (.integer 64),
        .parameter 0 (.integer 64)],
      .generic .loadImm [.virtualReg 2 (.integer 64), .immediate 7 (.integer 64)],
      .generic .branch [.virtualReg 1 (.integer 64), .label "loop"]]⟩,
    ⟨"exit", rest ++ [.generic .ret [.virtualReg result (.integer 64)]]⟩]

/-- The loop whose parameter is mentioned again behind it. -/
def enclosing : Function :=
  loopWith [.generic .add [.virtualReg 3 (.integer 64), .virtualReg 2 (.integer 64),
    .parameter 0 (.integer 64)]] 3

/-- The loop whose parameter is not mentioned behind it. -/
def looping : Function := loopWith [] 2

theorem enclosing_allocation : ∃ a, enclosing.assignRegisters Arch.aarch64.target =
    .ok (a, enclosing) := by
  have hrun : (enclosing.assignRegisters Arch.aarch64.target).map (·.2) = .ok enclosing := by
    decide +kernel
  obtain ⟨⟨a, g⟩, hok, rfl⟩ := map_eq_ok.mp hrun
  exact ⟨a, hok⟩

theorem jumpBack_enclosing {q p : Nat} (h : p ∈ enclosing.successors q) (hback : p ≤ q) :
    q = 2 ∧ p = 0 := by
  obtain ⟨i, hi⟩ := exists_of_mem_successors h
  have hlt : q < 5 := (List.getElem?_eq_some_iff.mp hi).1
  have hall : ∀ q < 5, ∀ p ∈ enclosing.successors q, p ≤ q → q = 2 ∧ p = 0 := by decide +kernel
  exact hall q hlt p h hback

theorem not_liveAt_enclosing : ¬ LiveAt enclosing 2 0 := by
  have hone : ¬ LiveAt enclosing 2 1 := by
    rintro (⟨hi, hread⟩ | ⟨hi, hwrite, -, -⟩)
    · cases hi
      exact absurd hread (by decide)
    · cases hi
      exact hwrite (by decide)
  rintro (⟨hi, hread⟩ | ⟨-, -, hedge, hlive⟩)
  · cases hi
    exact absurd hread (by decide)
  · have hnext : enclosing.successors 0 = [1] := by decide +kernel
    rw [hnext, List.mem_singleton] at hedge
    exact hone (hedge ▸ hlive)

theorem enclosed_param : Enclosed enclosing 0 where
  entry _ := by decide
  head _ _ _ _ := .inl (by decide)
  latch _ hedge hback _ := by
    obtain ⟨rfl, -⟩ := jumpBack_enclosing hedge hback
    exact ⟨3, by decide, _, rfl, by decide⟩

theorem enclosed_value : Enclosed enclosing 2 where
  entry hlive := absurd hlive not_liveAt_enclosing
  head _ hedge hback hlive := by
    obtain ⟨-, rfl⟩ := jumpBack_enclosing hedge hback
    exact absurd hlive not_liveAt_enclosing
  latch _ hedge hback hlive := by
    obtain ⟨-, rfl⟩ := jumpBack_enclosing hedge hback
    exact absurd hlive not_liveAt_enclosing

theorem enclosing_apart : ∃ a, enclosing.assignRegisters Arch.aarch64.target = .ok (a, enclosing) ∧
    Reachable enclosing 3 ∧ LiveAt enclosing 0 3 ∧ LiveAt enclosing 2 3 ∧
    ∃ reg₁ reg₂, a.assigned.lookup 0 = some reg₁ ∧ a.assigned.lookup 2 = some reg₂ ∧
      ¬ Arch.aarch64.target.registers.overlaps reg₁ reg₂ := by
  obtain ⟨a, hok⟩ := enclosing_allocation
  have hsingle : ∀ i ∈ enclosing.instructions, i.isReturn → i.operands.length ≤ 1 := by decide
  have hreach : Reachable enclosing 3 :=
    .step (.step (.step .entry (m := 1) (by decide +kernel)) (m := 2) (by decide +kernel))
      (by decide +kernel)
  have hparam : LiveAt enclosing 0 3 := .read rfl (by decide)
  have hvalue : LiveAt enclosing 2 3 := .read rfl (by decide)
  exact ⟨a, hok, hreach, hparam, hvalue, live_enclosed_apart .aarch64 _ _ _ hok (by decide) 0 2
    (by decide) enclosed_param enclosed_value (not_straddle hsingle 0 2) (not_straddle hsingle 2 0) 3
    hreach hparam hvalue⟩

/-- **A loop may lose a value**: at its end the parameter and the value of the loop are both live,
and both in register 31. -/
theorem looping_clobbers :
    (∀ i ∈ looping.instructions, i.isCall = false) ∧
    (looping.params.filter (·.isReturnBuffer)).length ≤ 1 ∧
    ∃ a, looping.assignRegisters Arch.aarch64.target = .ok (a, looping) ∧
      Reachable looping 2 ∧ LiveAt looping 0 2 ∧ LiveAt looping 2 2 ∧
      ∃ reg₁ reg₂, a.assigned.lookup 0 = some reg₁ ∧ a.assigned.lookup 2 = some reg₂ ∧
        Arch.aarch64.target.registers.overlaps reg₁ reg₂ := by
  have hrun : (looping.assignRegisters Arch.aarch64.target).map (fun x => (x.1.assigned, x.2)) =
      .ok ([(1, 32), (2, 31), (0, 31)], looping) := by
    decide +kernel
  obtain ⟨⟨⟨assigned, ranges⟩, g⟩, hok, heq⟩ := map_eq_ok.mp hrun
  cases heq
  have hreach : Reachable looping 2 :=
    .step (.step .entry (m := 1) (by decide +kernel)) (by decide +kernel)
  have hparam : LiveAt looping 0 2 :=
    .pass rfl (by decide) (m := 0) (by decide +kernel) (.read rfl (by decide))
  have hvalue : LiveAt looping 2 2 :=
    .pass rfl (by decide) (m := 3) (by decide +kernel) (.read rfl (by decide))
  exact ⟨by decide, by decide, _, hok, hreach, hparam, hvalue, 31, 31, rfl, rfl,
    beq_self_eq_true _⟩

end Retarget.Machine.Function
