import Mathlib.Data.List.Pairwise
import Retarget.Proofs.Checked
import Retarget.Proofs.LiveRange
import Retarget.Proofs.Registers

/-!
# Bound registers

Before the scan, parameters are bound to argument registers and returned values to the return
register.  Two parameters share a register only if both hold return buffers
(`bindParameters_apart`).  The bindings of returned values are followed as a `Plan`, one step for
each instruction: bindings are never changed (`Plan.lookup_mono`), a new one belongs to a return
without a move (`Plan.lookup_new`), a move goes to a register other than the one its value has
(`Plan.moved_elsewhere`), and values on one register have live ranges apart
(`Plan.keepsApart`).
-/

namespace Retarget.Machine.Function

variable {t : Target} {f : Function} {name : String}

/-- The function has a return-buffer parameter with this id. -/
def IsBuffer (f : Function) (id : RegId) : Prop := ∃ p ∈ f.params, p.id = id ∧ p.isReturnBuffer

/-! ## Parameters -/

def remainingRoots (t : Target) (next nextFloat : Nat) : List RegId :=
  (t.convention.arguments.drop next ++ t.convention.floatArguments.drop nextFloat).map
    t.registers.root

theorem drop_of_getElem? {regs : List RegId} {k : Nat} {reg : RegId} (h : regs[k]? = some reg) :
    regs.drop k = reg :: regs.drop (k + 1) := by
  obtain ⟨hk, rfl⟩ := List.getElem?_eq_some_iff.mp h
  exact List.drop_eq_getElem_cons hk

/-- One step of the binding of parameters: a return buffer goes to its register, and any other
parameter to one of the argument registers that are left. -/
theorem bindParameters_cons {next nextFloat : Nat} {p : Parameter} {rest : List Parameter}
    {bound : List (RegId × RegId)}
    (h : bindParameters t name next nextFloat (p :: rest) = .ok bound) :
    ∃ reg next' nextFloat' bound', bindParameters t name next' nextFloat' rest = .ok bound' ∧
      bound = bindBefore p.id (t.registers.root reg) bound' ∧
      (p.isReturnBuffer ∧ reg = t.registers.returnBuffer ∧
          remainingRoots t next nextFloat = remainingRoots t next' nextFloat' ∨
        (remainingRoots t next nextFloat).Perm
          (t.registers.root reg :: remainingRoots t next' nextFloat')) := by
  simp only [bindParameters] at h
  split at h
  · next hbuffer =>
    obtain ⟨bound', hrest, h⟩ := bind_eq_ok.mp h
    exact ⟨_, _, _, bound', hrest, (pure_eq_ok.mp h).symm, .inl ⟨hbuffer, rfl, rfl⟩⟩
  · split at h
    · obtain ⟨reg, hreg, h⟩ := bind_eq_ok.mp h
      obtain ⟨bound', hrest, h⟩ := bind_eq_ok.mp h
      refine ⟨reg, _, _, bound', hrest, (pure_eq_ok.mp h).symm, .inr ?_⟩
      rw [remainingRoots, drop_of_getElem? (orFail_eq_ok.mp hreg)]
      exact List.perm_middle.map _
    · obtain ⟨reg, hreg, h⟩ := bind_eq_ok.mp h
      obtain ⟨bound', hrest, h⟩ := bind_eq_ok.mp h
      refine ⟨reg, _, _, bound', hrest, (pure_eq_ok.mp h).symm, .inr ?_⟩
      rw [remainingRoots, drop_of_getElem? (orFail_eq_ok.mp hreg)]
      exact List.Perm.refl _

theorem mem_bindBefore {id reg : RegId} {bound : List (RegId × RegId)} {e : RegId × RegId}
    (h : e ∈ bindBefore id reg bound) : e = (id, reg) ∨ e ∈ bound := by
  rw [bindBefore] at h
  split at h
  · exact .inr h
  · exact List.mem_cons.mp h

theorem isSome_lookup_bindBefore {id reg other : RegId} {bound : List (RegId × RegId)}
    (h : other = id ∨ (bound.lookup other).isSome) :
    ((bindBefore id reg bound).lookup other).isSome := by
  rw [bindBefore]
  split
  · next hid =>
    rcases h with rfl | h
    · exact hid
    · exact h
  · by_cases ho : other = id
    · simp [ho]
    · rw [List.lookup_cons, beq_false_of_ne ho]
      exact h.resolve_left ho

theorem isSome_lookup_bindParameters {next nextFloat : Nat} {params : List Parameter}
    {bound : List (RegId × RegId)} (h : bindParameters t name next nextFloat params = .ok bound)
    {p : Parameter} (hp : p ∈ params) : (bound.lookup p.id).isSome := by
  induction params generalizing next nextFloat bound with
  | nil => simp at hp
  | cons q rest ih =>
    obtain ⟨reg, _, _, bound', hrest, rfl, -⟩ := bindParameters_cons h
    rcases List.mem_cons.mp hp with rfl | hp
    · exact isSome_lookup_bindBefore (.inl rfl)
    · exact isSome_lookup_bindBefore (.inr (ih hrest hp))

/-- A binding is that of a parameter: to the register of the return buffer if it holds one, and to
an argument register that is left otherwise. -/
theorem mem_bindParameters {next nextFloat : Nat} {params : List Parameter}
    {bound : List (RegId × RegId)} (h : bindParameters t name next nextFloat params = .ok bound)
    {id reg : RegId} (hmem : (id, reg) ∈ bound) :
    ∃ p ∈ params, p.id = id ∧
      (p.isReturnBuffer ∧ reg = t.bufferRoot ∨ reg ∈ remainingRoots t next nextFloat) := by
  induction params generalizing next nextFloat bound with
  | nil =>
    cases h
    simp at hmem
  | cons p rest ih =>
    obtain ⟨r, _, _, bound', hrest, rfl, hcase⟩ := bindParameters_cons h
    rcases mem_bindBefore hmem with he | hmem
    · cases he
      refine ⟨p, by simp, rfl, ?_⟩
      rcases hcase with ⟨hbuffer, rfl, -⟩ | hperm
      · exact .inl ⟨hbuffer, rfl⟩
      · exact .inr (hperm.mem_iff.mpr (by simp))
    · obtain ⟨q, hq, hid, hreg⟩ := ih hrest hmem
      refine ⟨q, by simp [hq], hid, hreg.imp_right fun hreg => ?_⟩
      rcases hcase with ⟨-, -, heq⟩ | hperm
      · rwa [heq]
      · exact hperm.mem_iff.mpr (by simp [hreg])

/-- Two bindings are of different ids, and of one register only if it is that of the return
buffer. -/
theorem bindParameters_pairwise {next nextFloat : Nat} {params : List Parameter}
    {bound : List (RegId × RegId)} (h : bindParameters t name next nextFloat params = .ok bound)
    (hnodup : (remainingRoots t next nextFloat).Nodup)
    (hbuffer : t.bufferRoot ∉ remainingRoots t next nextFloat) :
    bound.Pairwise fun a b => a.1 ≠ b.1 ∧ (a.2 = b.2 → a.2 = t.bufferRoot) := by
  induction params generalizing next nextFloat bound with
  | nil =>
    cases h
    exact List.Pairwise.nil
  | cons p rest ih =>
    obtain ⟨r, _, _, bound', hrest, rfl, hcase⟩ := bindParameters_cons h
    have htail := ih hrest
      (by
        rcases hcase with ⟨-, -, heq⟩ | hperm
        · exact heq ▸ hnodup
        · exact (List.nodup_cons.mp (hperm.nodup_iff.mp hnodup)).2)
      (by
        rcases hcase with ⟨-, -, heq⟩ | hperm
        · exact heq ▸ hbuffer
        · exact fun hmem => hbuffer (hperm.mem_iff.mpr (by simp [hmem])))
    rw [bindBefore]
    split
    · exact htail
    · next hnone =>
      refine List.pairwise_cons.mpr ⟨fun e he => ⟨fun hid => ?_, fun hreg => ?_⟩, htail⟩
      · refine hnone (List.lookup_isSome_iff.mpr ⟨e, he, ?_⟩)
        simpa using hid
      · rcases hcase with ⟨-, rfl, -⟩ | hperm
        · rfl
        · obtain ⟨other, reg⟩ := e
          obtain ⟨q, -, -, hq⟩ := mem_bindParameters hrest he
          rcases hq with ⟨-, hq⟩ | hq
          · exact hreg.trans hq
          · refine absurd ?_ (List.nodup_cons.mp (hperm.nodup_iff.mp hnodup)).1
            rwa [show t.registers.root r = reg from hreg]

/-- **Parameters on one register are return buffers.** -/
theorem bindParameters_apart (ht : t.Regular) {bound : List (RegId × RegId)}
    (h : bindParameters t name 0 0 f.params = .ok bound) {a b reg : RegId} (hab : a ≠ b)
    (ha : bound.lookup a = some reg) (hb : bound.lookup b = some reg) :
    f.IsBuffer a ∧ f.IsBuffer b := by
  have hroots : remainingRoots t 0 0 = t.argumentRoots := rfl
  have hpair := bindParameters_pairwise h (hroots ▸ ht.arguments_nodup) (hroots ▸ ht.buffer_apart)
  have hsymm : Std.Symm fun a b : RegId × RegId =>
      a.1 ≠ b.1 ∧ (a.2 = b.2 → a.2 = t.bufferRoot) :=
    ⟨fun x y ⟨h1, h2⟩ => ⟨h1.symm, fun he => he.trans (h2 he.symm)⟩⟩
  have hreg : reg = t.bufferRoot :=
    (hpair.forall (mem_of_lookup_eq_some ha) (mem_of_lookup_eq_some hb) (by simp [hab])).2 rfl
  have hbuffer : ∀ {id}, bound.lookup id = some reg → f.IsBuffer id := by
    intro id hid
    obtain ⟨p, hp, hpid, ⟨hbuf, -⟩ | hmem⟩ := mem_bindParameters h (mem_of_lookup_eq_some hid)
    · exact ⟨p, hp, hpid, hbuf⟩
    · exact absurd (hroots ▸ hreg ▸ hmem) ht.buffer_apart
  exact ⟨hbuffer ha, hbuffer hb⟩

theorem mem_paramIds_of_lookup {bound : List (RegId × RegId)}
    (h : bindParameters t name 0 0 f.params = .ok bound) {id reg : RegId}
    (hid : bound.lookup id = some reg) : id ∈ f.params.map (·.id) := by
  obtain ⟨p, hp, hpid, -⟩ := mem_bindParameters h (mem_of_lookup_eq_some hid)
  exact List.mem_map.mpr ⟨p, hp, hpid⟩

/-! ## Returned values -/

/-- The id that a return hands back, with its type. -/
def returned? (i : Instruction) : Option (RegId × LowType) :=
  ((i.operand? 0).filter fun o => i.isReturn && (o.isVirtual || o.isParameter)).bind fun value =>
    value.unallocated?.map (·, value.ty)

/-- The full-width register in which a value of a type is handed back. -/
def resultRoot? (t : Target) (ty : LowType) : Option RegId :=
  (t.convention.resultsOf ty.isFloat).head?.map t.registers.root

variable {ranges : List LiveRange} {bound bound' : List (RegId × RegId)}

/-- What one instruction does to the bindings: nothing, if it hands back no id; else its id keeps
the register it is bound to, stays without one, or is bound to the result register. -/
theorem planReturn_cases {i : Instruction} {home : Option RegId}
    (h : planReturn t f ranges bound i = .ok (bound', home)) :
    (returned? i = none ∧ bound' = bound ∧ home = none) ∨
    ∃ id ty reg, returned? i = some (id, ty) ∧ resultRoot? t ty = some reg ∧
      ((∃ old, bound.lookup id = some old ∧ bound' = bound ∧
          home = if old = reg then none else some reg) ∨
        bound.lookup id = none ∧ ranges.find? (·.reg == id) = none ∧ bound' = bound ∧ home = none ∨
        ∃ range, bound.lookup id = none ∧ ranges.find? (·.reg == id) = some range ∧
          ((clashesWithBound ranges bound range reg ∨ isOverwritten t f range reg) ∧
              bound' = bound ∧ home = some reg ∨
            ¬ clashesWithBound ranges bound range reg ∧ ¬ isOverwritten t f range reg ∧
              bound' = (id, reg) :: bound ∧ home = none)) := by
  rw [planReturn] at h
  split at h
  · next hnone =>
    cases h
    exact .inl ⟨by rw [returned?, hnone]; rfl, rfl, rfl⟩
  · next value hvalue =>
    cases hid : value.unallocated? with
    | none =>
      simp only [hid, pure_eq_ok, Prod.mk.injEq] at h
      obtain ⟨rfl, rfl⟩ := h
      exact .inl ⟨by rw [returned?, hvalue, Option.bind_some, hid]; rfl, rfl, rfl⟩
    | some id =>
      simp only [hid] at h
      obtain ⟨first, hfirst, h⟩ := bind_eq_ok.mp h
      refine .inr ⟨id, value.ty, t.registers.root first, ?_, ?_, ?_⟩
      · rw [returned?, hvalue, Option.bind_some, hid]
        rfl
      · rw [resultRoot?, orFail_eq_ok.mp hfirst]
        rfl
      · cases hold : bound.lookup id with
        | some old =>
          simp only [hold, pure_eq_ok, Prod.mk.injEq] at h
          exact .inl ⟨old, rfl, h.1.symm, h.2.symm⟩
        | none =>
          simp only [hold] at h
          cases hrange : ranges.find? (·.reg == id) with
          | none =>
            simp only [hrange, pure_eq_ok, Prod.mk.injEq] at h
            exact .inr (.inl ⟨rfl, rfl, h.1.symm, h.2.symm⟩)
          | some range =>
            simp only [hrange] at h
            refine .inr (.inr ⟨range, rfl, rfl, ?_⟩)
            split at h
            · next hclash =>
              simp only [pure_eq_ok, Prod.mk.injEq] at h
              exact .inl ⟨by simpa using hclash, h.1.symm, h.2.symm⟩
            · next hfree =>
              simp only [pure_eq_ok, Prod.mk.injEq] at h
              have hfree : ¬ clashesWithBound ranges bound range (t.registers.root first) ∧
                  ¬ isOverwritten t f range (t.registers.root first) := by simpa using hfree
              exact .inr ⟨hfree.1, hfree.2, h.1.symm, h.2.symm⟩

/-- The decisions about a list of instructions, each with the register its value is moved to. -/
inductive Plan (t : Target) (f : Function) (ranges : List LiveRange) :
    List (RegId × RegId) → List (Instruction × Option RegId) → List (RegId × RegId) → Prop
  | nil (bound : List (RegId × RegId)) : Plan t f ranges bound [] bound
  | cons {bound bound' bound'' : List (RegId × RegId)} {i : Instruction} {home : Option RegId}
      {rest : List (Instruction × Option RegId)}
      (step : planReturn t f ranges bound i = .ok (bound', home))
      (tail : Plan t f ranges bound' rest bound'') : Plan t f ranges bound ((i, home) :: rest) bound''

namespace Plan

variable {plan plan' : List (Instruction × Option RegId)} {bound'' : List (RegId × RegId)}

theorem append (h : Plan t f ranges bound plan bound') (h' : Plan t f ranges bound' plan' bound'') :
    Plan t f ranges bound (plan ++ plan') bound'' := by
  induction h with
  | nil => exact h'
  | cons step _ ih => exact .cons step (ih h')

end Plan

theorem planReturn_bound {i : Instruction} {home : Option RegId}
    (h : planReturn t f ranges bound i = .ok (bound', home)) :
    bound' = bound ∨ ∃ id ty reg range, returned? i = some (id, ty) ∧
      resultRoot? t ty = some reg ∧ bound.lookup id = none ∧
      ranges.find? (·.reg == id) = some range ∧ ¬ clashesWithBound ranges bound range reg ∧
      ¬ isOverwritten t f range reg ∧ bound' = (id, reg) :: bound ∧ home = none := by
  rcases planReturn_cases h with ⟨-, rfl, -⟩ | ⟨id, ty, reg, hid, hreg, hcase⟩
  · exact .inl rfl
  · rcases hcase with ⟨_, -, rfl, -⟩ | ⟨-, -, rfl, -⟩ | ⟨range, hnone, hrange, hcase⟩
    · exact .inl rfl
    · exact .inl rfl
    · rcases hcase with ⟨-, rfl, -⟩ | ⟨hclash, hover, rfl, hhome⟩
      · exact .inl rfl
      · exact .inr ⟨id, ty, reg, range, hid, hreg, hnone, hrange, hclash, hover, rfl, hhome⟩

/-- Two ids on one register are an exception, or their ranges do not interfere. -/
def KeepsApart (E : RegId → RegId → Prop) (ranges : List LiveRange)
    (bound : List (RegId × RegId)) : Prop :=
  ∀ a b reg, a ≠ b → bound.lookup a = some reg → bound.lookup b = some reg →
    E a b ∨ ∀ ra rb, ranges.find? (·.reg == a) = some ra → ranges.find? (·.reg == b) = some rb →
      ¬ ra.interferes rb

theorem lookup_cons_of_lookup {id other reg old : RegId} (hnone : bound.lookup id = none)
    (h : bound.lookup other = some old) : ((id, reg) :: bound).lookup other = some old := by
  have hne : other ≠ id := fun he => by simp [he, hnone] at h
  rwa [List.lookup_cons, beq_false_of_ne hne]

theorem clashesWithBound_mono {range : LiveRange} {reg : RegId}
    (hsub : ∀ e ∈ bound, e ∈ bound') (h : clashesWithBound ranges bound range reg) :
    clashesWithBound ranges bound' range reg := by
  rw [clashesWithBound, List.any_eq_true] at h ⊢
  obtain ⟨e, he, hclash⟩ := h
  exact ⟨e, hsub e he, hclash⟩

namespace Plan

variable {plan plan' : List (Instruction × Option RegId)} {bound'' : List (RegId × RegId)}

theorem lookup_mono (h : Plan t f ranges bound plan bound') {id reg : RegId}
    (hid : bound.lookup id = some reg) : bound'.lookup id = some reg := by
  induction h with
  | nil => exact hid
  | cons step _ ih =>
    rcases planReturn_bound step with rfl | ⟨_, _, _, _, -, -, hnone, -, -, -, rfl, -⟩
    · exact ih hid
    · exact ih (lookup_cons_of_lookup hnone hid)

theorem lookup_new (h : Plan t f ranges bound plan bound') {id reg : RegId}
    (hid : bound'.lookup id = some reg) :
    bound.lookup id = some reg ∨
      ∃ i ty, (i, none) ∈ plan ∧ returned? i = some (id, ty) ∧ resultRoot? t ty = some reg := by
  induction h with
  | nil => exact .inl hid
  | cons step tail ih =>
    rcases ih hid with hold | ⟨i, ty, hmem, hrest⟩
    · rcases planReturn_bound step with rfl | ⟨id', ty, reg', _, hret, hreg, -, -, -, -, rfl, rfl⟩
      · exact .inl hold
      · rw [List.lookup_cons] at hold
        split at hold
        · next heq =>
          cases hold
          rw [eq_of_beq heq]
          exact .inr ⟨_, ty, by simp, hret, hreg⟩
        · exact .inl hold
    · exact .inr ⟨i, ty, by simp [hmem], hrest⟩

theorem lookup_ne_of_blocked (h : Plan t f ranges bound plan bound') {id reg : RegId}
    {range : LiveRange} (hnone : bound.lookup id = none)
    (hrange : ranges.find? (·.reg == id) = some range)
    (hblock : clashesWithBound ranges bound range reg ∨ isOverwritten t f range reg) :
    bound'.lookup id ≠ some reg := by
  induction h with
  | nil => simp [hnone]
  | cons step tail ih =>
    rcases planReturn_bound step with rfl | ⟨id', _, reg', _, -, -, -, hrange', hclash, hover, rfl, -⟩
    · exact ih hnone hblock
    · by_cases hid : id = id'
      · subst hid
        have hne : reg' ≠ reg := by
          rintro rfl
          rw [hrange] at hrange'
          cases hrange'
          exact hblock.elim hclash hover
        rw [tail.lookup_mono List.lookup_cons_self]
        simpa using hne
      · refine ih ?_ (hblock.imp_left (clashesWithBound_mono fun e he => by simp [he]))
        rwa [List.lookup_cons, beq_false_of_ne hid]

theorem moved_elsewhere (h : Plan t f ranges bound plan bound') {i : Instruction} {reg : RegId}
    (hmem : (i, some reg) ∈ plan) :
    ∃ id ty, returned? i = some (id, ty) ∧ resultRoot? t ty = some reg ∧
      bound'.lookup id ≠ some reg := by
  induction h with
  | nil => simp at hmem
  | cons step tail ih =>
    rcases List.mem_cons.mp hmem with he | hmem
    · cases he
      rcases planReturn_cases step with ⟨-, -, hhome⟩ | ⟨id, ty, reg', hret, hreg, hcase⟩
      · cases hhome
      · rcases hcase with ⟨old, hold, rfl, hhome⟩ | ⟨-, -, -, hhome⟩ | ⟨range, hnone, hrange, hcase⟩
        · split at hhome
          · cases hhome
          · next hne =>
            cases hhome
            refine ⟨id, ty, hret, hreg, ?_⟩
            rw [tail.lookup_mono hold]
            simpa using hne
        · cases hhome
        · rcases hcase with ⟨hblock, rfl, hhome⟩ | ⟨-, -, -, hhome⟩
          · cases hhome
            exact ⟨id, ty, hret, hreg, tail.lookup_ne_of_blocked hnone hrange hblock⟩
          · cases hhome
    · exact ih hmem

theorem moved_of_lookup_ne (h : Plan t f ranges bound plan bound') {i : Instruction}
    {home : Option RegId} (hmem : (i, home) ∈ plan) {id : RegId} {ty : LowType} {reg : RegId}
    (hret : returned? i = some (id, ty)) (hreg : resultRoot? t ty = some reg)
    (hrange : ranges.find? (·.reg == id) ≠ none) (hne : bound'.lookup id ≠ some reg) :
    home = some reg := by
  induction h with
  | nil => simp at hmem
  | cons step tail ih =>
    rcases List.mem_cons.mp hmem with he | hmem
    · cases he
      rcases planReturn_cases step with ⟨hno, -, -⟩ | ⟨id', ty', reg', hret', hreg', hcase⟩
      · rw [hno] at hret
        cases hret
      · rw [hret] at hret'
        cases hret'
        rw [hreg] at hreg'
        cases hreg'
        rcases hcase with ⟨old, hold, rfl, rfl⟩ | ⟨-, hno, -, -⟩ | ⟨range, -, -, hcase⟩
        · split
          · next heq => exact absurd (tail.lookup_mono (heq ▸ hold)) hne
          · rfl
        · exact absurd hno hrange
        · rcases hcase with ⟨-, -, hhome⟩ | ⟨-, -, rfl, -⟩
          · exact hhome
          · exact absurd (tail.lookup_mono (by simp)) hne
    · exact ih hmem hne

theorem keepsApart {E : RegId → RegId → Prop} (h : Plan t f ranges bound plan bound')
    (hbound : KeepsApart E ranges bound) : KeepsApart E ranges bound' := by
  induction h with
  | nil => exact hbound
  | @cons b₀ _ _ _ _ _ step tail ih =>
    rcases planReturn_bound step with rfl | ⟨id, _, home, range, -, -, -, hrange, hclash, -, rfl, -⟩
    · exact ih hbound
    · refine ih fun a b reg hab ha hb => ?_
      -- the new binding keeps away from the ranges that are bound to its register
      have hnew : ∀ {other}, other ≠ id → ((id, home) :: b₀).lookup other = some home →
          ∀ ra, ranges.find? (·.reg == other) = some ra → ¬ ra.interferes range := by
        intro other ho hother ra hra hint
        rw [List.lookup_cons, beq_false_of_ne ho] at hother
        refine hclash (List.any_eq_true.mpr ⟨_, mem_of_lookup_eq_some hother, ?_⟩)
        simp [hra, hint]
      by_cases ha' : a = id
      · subst ha'
        simp only [List.lookup_cons_self, Option.some.injEq] at ha
        subst ha
        refine .inr fun ra rb hra hrb hint => ?_
        rw [hrange] at hra
        cases hra
        exact hnew hab.symm hb rb hrb (by rwa [LiveRange.interferes_comm])
      · by_cases hb' : b = id
        · subst hb'
          simp only [List.lookup_cons_self, Option.some.injEq] at hb
          subst hb
          refine .inr fun ra rb hra hrb hint => ?_
          rw [hrange] at hrb
          cases hrb
          exact hnew hab ha ra hra hint
        · rw [List.lookup_cons, beq_false_of_ne ha'] at ha
          rw [List.lookup_cons, beq_false_of_ne hb'] at hb
          exact hbound a b reg hab ha hb

end Plan

end Retarget.Machine.Function
