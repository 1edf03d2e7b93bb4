import Retarget.Proofs.Convention.CalleeSaved
import Retarget.Proofs.Convention.Fills
import Retarget.Proofs.NamedRegisters

/-!
# Registers that hold on to their values

What code may rely on once ids have registers, in terms of where ids are mentioned alone: two ids
that are mentioned in turns have different registers (`lookup_ne_of_before`), and so have an id that
something other than a return mentions and a parameter that is mentioned later
(`lookup_ne_parameter`).  Between two mentions of an id no instruction names its register
(`not_mem_physicalRoots_of_between`), and no id is in the stack pointer (`lookup_ne_stackRoot`).
-/

namespace Retarget

namespace Target.Reserved

variable {t : Target}

theorem root_stack (ht : t.Reserved) : t.stackRoot = t.registers.stack := by
  rw [Target.stackRoot, Registers.root, Registers.parent?]
  cases hfind : t.registers.file.find? fun r => r.views.contains t.registers.stack with
  | none => rfl
  | some r =>
    have hview := List.find?_some hfind
    rw [List.contains_iff_mem] at hview
    exact absurd hview (ht.alone r (List.mem_of_find?_eq_some hfind)).1

end Target.Reserved

namespace Machine.Function

variable {a : Arch} {f g : Function} {alloc : Allocation} {is xs ys : List Instruction}
  {i : Instruction} {v w id reg : RegId}

/-! ## Mentions with the moves in place -/

namespace Plan

variable {t : Target} {plan : List (Instruction × Option RegId)}

theorem before_code_of_before (h : Movable plan) (hbefore : Before (plan.map (·.1)) v w) :
    Before (code t plan) v w := by
  induction plan with
  | nil => exact hbefore
  | cons e plan ih =>
    obtain ⟨he, hrest⟩ := movable_cons h
    rw [code_cons, before_append]
    rcases hbefore with ⟨hv, hw⟩ | hbefore
    · exact .inr (.inl ⟨(occurs_moveReturn he).mpr hv, (occurs_code hrest).mpr hw⟩)
    · exact .inr (.inr (ih hrest hbefore))

theorem moveReturn_ne_nil (i : Instruction) (home : Option RegId) : moveReturn t i home ≠ [] := by
  unfold moveReturn
  split <;> simp

theorem occurs_tail_code_of_occurs (h : Movable plan) (hoccurs : Occurs (plan.map (·.1)).tail id) :
    Occurs (code t plan).tail id := by
  cases plan with
  | nil => exact hoccurs
  | cons e plan =>
    obtain ⟨he, hrest⟩ := movable_cons h
    have hcode : Occurs (code t plan) id := (occurs_code hrest).mpr hoccurs
    rw [code_cons]
    cases hmove : moveReturn t e.1 e.2 with
    | nil => exact absurd hmove (moveReturn_ne_nil _ _)
    | cons first rest =>
      rw [List.cons_append, List.tail_cons]
      exact occurs_append.mpr (.inr hcode)

end Plan

/-! ## Ids with registers -/

section allocated

variable (h : f.assignRegisters a.target = .ok (alloc, g))
include h

theorem exists_range (hid : Occurs f.instructions id ∨ id ∈ f.paramIds) :
    ∃ r ∈ alloc.ranges, r.reg = id := by
  obtain ⟨params, bound, g', s, -, hreturns, -, rfl, -⟩ := assignRegisters_cases a.regular h
  refine List.mem_map.mp ((g'.liveRanges_hulls.mem_iff id).mpr ?_)
  rw [← occurs_iff, occurs_bindReturns hreturns, paramIds_bindReturns hreturns]
  exact hid.symm

theorem exists_lookup (hid : Occurs f.instructions id ∨ id ∈ f.paramIds) :
    ∃ reg, alloc.assigned.lookup id = some reg := by
  obtain ⟨r, hr, rfl⟩ := exists_range h hid
  exact assigned_total a.regular h r hr

theorem mem_homes_of_lookup (hid : alloc.assigned.lookup id = some reg) :
    reg ∈ a.target.homes := by
  obtain ⟨params, bound, g', s, hparams, hreturns, hsound, rfl, -⟩ :=
    assignRegisters_cases a.regular h
  rcases hsound.origin id reg hid with hbound | ⟨hfree, -⟩
  · obtain ⟨first, hfirst, rfl⟩ := exists_passing_of_bound hparams hreturns hbound
    have hmem : a.target.registers.root first ∈ a.target.passing.map a.target.registers.root :=
      List.mem_map_of_mem hfirst
    simp [Target.homes, hmem]
  · have hmem := (mem_free hfree).1
    simp [Target.homes, hmem]

/-- **No id is in the stack pointer.** -/
theorem lookup_ne_stackRoot (hid : alloc.assigned.lookup id = some reg) :
    reg ≠ a.target.stackRoot := by
  rw [a.reserved.root_stack]
  exact a.reserved.ne_of_mem_homes (mem_homes_of_lookup h hid)

/-! ## Different registers -/

section apart

variable (hreturns : ∀ i ∈ f.instructions, i.isReturn → i.operands.length ≤ 1)
include hreturns

/-- **Two ids that are mentioned in turns have different registers.**  A parameter is mentioned at
the start of the function, too. -/
theorem lookup_ne_of_before (hv : v ∉ f.paramIds) (hne : v ≠ w) (hvw : Before f.instructions v w)
    (hwv : (w ∈ f.paramIds ∧ Occurs f.instructions.tail v) ∨ Before f.instructions w v) :
    alloc.assigned.lookup v ≠ alloc.assigned.lookup w := by
  intro hsame
  have hocc : Occurs f.instructions v ∧ Occurs f.instructions w := by
    obtain ⟨n, m, -, hn, hm⟩ := before_iff.mp hvw
    exact ⟨occurs_iff.mpr ⟨n, hn⟩, occurs_iff.mpr ⟨m, hm⟩⟩
  obtain ⟨r₁, hr₁, rfl⟩ := exists_range h (.inl hocc.1)
  obtain ⟨r₂, hr₂, rfl⟩ := exists_range h (.inl hocc.2)
  obtain ⟨reg, hreg⟩ := assigned_total a.regular h r₁ hr₁
  have hint : r₁.interferes r₂ := by
    obtain ⟨params, bound, g', s, -, hbind, -, rfl, -⟩ := assignRegisters_cases a.regular h
    obtain ⟨plan, hplan, hfst, hcode, -⟩ := bindReturns_plan hbind
    have hull₁ := g'.liveRanges_hulls.hull r₁ hr₁
    have hull₂ := g'.liveRanges_hulls.hull r₂ hr₂
    rw [paramIds_bindReturns hbind, hcode] at hull₁ hull₂
    rw [← hfst] at hvw hwv
    have hafter : Before (Plan.code a.target plan) r₁.reg r₂.reg :=
      Plan.before_code_of_before hplan.movable hvw
    simp only [LiveRange.interferes, Bool.and_eq_true, decide_eq_true_eq]
    rw [LiveRange.start_lt_stop_iff hull₁ hull₂, LiveRange.start_lt_stop_iff hull₂ hull₁]
    refine ⟨.inr ⟨hv, hafter⟩, ?_⟩
    rcases hwv with ⟨hw, htail⟩ | hback
    · exact .inl ⟨hw, Plan.occurs_tail_code_of_occurs hplan.movable htail⟩
    · have hback : Before (Plan.code a.target plan) r₂.reg r₁.reg :=
        Plan.before_code_of_before hplan.movable hback
      by_cases hw : r₂.reg ∈ f.paramIds
      · exact .inl ⟨hw, occurs_tail_of_before hback⟩
      · exact .inr ⟨hw, hback⟩
  have hover : a.target.registers.overlaps reg reg := by simp [Target.Registers.overlaps]
  rcases overlap_cases a.regular h hr₁ hr₂ hne hint hreg (hsame ▸ hreg) hover with
    ⟨⟨p, hp, hid, -⟩, -⟩ | hs | hs
  · exact hv (List.mem_map.mpr ⟨p, hp, hid⟩)
  · exact not_straddle hreturns _ _ hs
  · exact not_straddle hreturns _ _ hs

/-- **An id that something other than a return mentions is not in the register of a parameter that is
mentioned later.** -/
theorem lookup_ne_parameter (hv : v ∉ f.paramIds) (hw : w ∈ f.paramIds)
    (hsplit : f.instructions = xs ++ i :: ys) (hi : i.isReturn = false) (hid : v ∈ i.ids)
    (hys : Occurs ys w) : alloc.assigned.lookup v ≠ alloc.assigned.lookup w := by
  have hne : v ≠ w := fun heq => hv (heq ▸ hw)
  have hvw : Before f.instructions v w := by
    rw [hsplit, before_append]
    exact .inr (.inr (.inl ⟨hid, hys⟩))
  by_cases htail : Occurs f.instructions.tail v
  · exact lookup_ne_of_before h hreturns hv hne hvw (.inl ⟨hw, htail⟩)
  -- what is mentioned only at the start is not returned, so it comes from the pool
  intro hsame
  obtain ⟨reg, hreg⟩ := exists_lookup h (.inl ⟨i, by simp [hsplit], hid⟩)
  obtain ⟨params, bound, g', s, hparams, hbind, hsound, rfl, -⟩ := assignRegisters_cases a.regular h
  rcases hsound.origin v reg hreg with hbound | ⟨hfree, -⟩
  · obtain ⟨plan, hplan, hfst, -⟩ := bindReturns_plan hbind
    rcases hplan.lookup_new hbound with hold | ⟨j, ty, hmem, hret, -⟩
    · exact hv (mem_paramIds_of_lookup hparams hold)
    · have hj : j ∈ f.instructions := hfst ▸ List.mem_map_of_mem (f := Prod.fst) hmem
      have hjid : v ∈ j.ids := by
        rw [ids_of_returned? hret]
        exact List.mem_cons_self
      have hji : j ≠ i := by
        rintro rfl
        have hisReturn := (returned?_eq_some hret).1
        simp [hi] at hisReturn
      refine htail ⟨j, ?_, hjid⟩
      rw [hsplit] at hj ⊢
      cases xs with
      | nil => exact (List.mem_cons.mp hj).resolve_left hji
      | cons x xs =>
        refine absurd ?_ htail
        rw [hsplit]
        exact ⟨i, by simp, hid⟩
  · obtain ⟨p, hp, rfl⟩ := List.mem_map.mp hw
    obtain ⟨home, hhome⟩ :=
      Option.isSome_iff_exists.mp (isSome_lookup_bindParameters hparams hp)
    have hbound : bound.lookup p.id = some home := by
      obtain ⟨plan, hplan, -⟩ := bindReturns_plan hbind
      exact hplan.lookup_mono hhome
    have hassigned := hsound.bound_kept p.id home hbound
    have heq : home = reg := by
      have := hreg.symm.trans (hsame.trans hassigned)
      exact (Option.some.inj this).symm
    have hmem := mem_of_lookup_eq_some hbound
    exact (mem_free hfree).2 (heq ▸ List.mem_map_of_mem (f := Prod.snd) hmem)

end apart

/-! ## Registers that are not named -/

omit h in
/-- Between two mentions of an id that is bound, no instruction calls or names its register, unless
the id is a parameter. -/
theorem quiet_of_between {params bound : List (RegId × RegId)}
    {plan : List (Instruction × Option RegId)}
    (hparams : bindParameters a.target f.name 0 0 f.params = .ok params)
    (hplan : Plan a.target f f.liveRanges params plan bound) (hparam : id ∉ f.paramIds)
    (hbound : bound.lookup id = some reg) (hsplit : f.instructions = xs ++ i :: ys)
    (hxs : Occurs xs id) (hys : Occurs ys id) :
    i.isCall = false ∧ reg ∉ physicalRoots a.target i := by
  rcases hplan.lookup_not_overwritten hbound with hold | ⟨range, hrange, hover⟩
  · exact absurd (mem_paramIds_of_lookup hparams hold) hparam
  · have hsame : range.reg = id := by simpa using List.find?_some hrange
    have hull := f.liveRanges_hulls.hull range (List.mem_of_find?_eq_some hrange)
    have hmiddle : f.instructions[xs.length]? = some i := by simp [hsplit]
    obtain ⟨n, hn⟩ := occurs_iff.mp hxs
    obtain ⟨m, hm⟩ := occurs_iff.mp hys
    have hfirst : OccursAt f.instructions range.reg n := by
      obtain ⟨j, hj, hid⟩ := hn
      exact ⟨j, by rw [hsplit, List.getElem?_append_left (List.getElem?_eq_some_iff.mp hj).1, hj],
        hsame ▸ hid⟩
    have hlast : OccursAt f.instructions range.reg (xs.length + (m + 1)) := by
      obtain ⟨j, hj, hid⟩ := hm
      refine ⟨j, ?_, hsame ▸ hid⟩
      rw [hsplit, List.getElem?_append_right (Nat.le_add_right _ _), Nat.add_sub_cancel_left]
      exact hj
    have hlt : n < xs.length := by
      obtain ⟨j, hj, -⟩ := hn
      exact (List.getElem?_eq_some_iff.mp hj).1
    have hstart := (hull.covers n hfirst).1
    have hstop := (hull.covers _ hlast).2
    exact of_not_isOverwritten hover hmiddle (by omega) (by omega)

/-- **Between two mentions of an id, no instruction names its register**, returns apart. -/
theorem not_mem_physicalRoots_of_between (hparam : id ∉ f.paramIds)
    (hsplit : f.instructions = xs ++ i :: ys) (hxs : Occurs xs id) (hys : Occurs ys id)
    (hi : i.isReturn = false) (hreg : alloc.assigned.lookup id = some reg) :
    reg ∉ physicalRoots a.target i := by
  obtain ⟨params, bound, g', s, hparams, hbind, hsound, rfl, -⟩ := assignRegisters_cases a.regular h
  obtain ⟨plan, hplan, hfst, hcode, -⟩ := bindReturns_plan hbind
  rcases hsound.origin id reg hreg with hbound | ⟨hfree, -⟩
  · exact (quiet_of_between hparams hplan hparam hbound hsplit hxs hys).2
  · -- a register of the pool is named nowhere
    have hmem : i ∈ g'.instructions := by
      have hplanned : i ∈ plan.map (·.1) := by simp [hfst, hsplit]
      obtain ⟨⟨j, home⟩, he, rfl⟩ := List.mem_map.mp hplanned
      rw [hcode, Plan.code]
      refine List.mem_flatMap.mpr ⟨_, he, ?_⟩
      cases home with
      | none => exact List.mem_singleton_self _
      | some home =>
        obtain ⟨id', ty, hret⟩ := hplan.movable j home he
        have hisReturn := (returned?_eq_some hret).1
        simp [hi] at hisReturn
    rw [free_freePool, List.mem_filter] at hfree
    intro hnamed
    have hreserved : reg ∈ bound.map (·.2) ++ g'.instructions.flatMap (physicalRoots a.target) :=
      List.mem_append_right _ (List.mem_flatMap.mpr ⟨i, hmem, hnamed⟩)
    have hout := hfree.2
    rw [List.contains_iff_mem.mpr hreserved] at hout
    cases hout

end allocated

end Machine.Function

end Retarget
