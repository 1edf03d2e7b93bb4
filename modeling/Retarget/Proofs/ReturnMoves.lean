import Retarget.Proofs.Bindings

/-!
# Moves before returns

A move before a return takes over the mention of the returned id, and every other id stays where it
was.  So the function with the moves mentions the same ids (`Plan.occurs_code`) and in the same
order, but for one case: an id handed back by a return with a move now comes before the other ids of
that return (`Plan.before_code`).
-/

namespace Retarget.Machine

def Occurs (is : List Instruction) (id : RegId) : Prop := ∃ i ∈ is, id ∈ i.ids

/-- Some instruction mentions `v`, and a later one `w`. -/
def Before : List Instruction → RegId → RegId → Prop
  | [], _, _ => False
  | i :: is, v, w => v ∈ i.ids ∧ Occurs is w ∨ Before is v w

section lists

variable {is js : List Instruction} {id v w : RegId}

theorem occurs_iff : Occurs is id ↔ ∃ n, OccursAt is id n := by
  constructor
  · rintro ⟨i, hi, hid⟩
    obtain ⟨n, hn⟩ := List.mem_iff_getElem?.mp hi
    exact ⟨n, i, hn, hid⟩
  · rintro ⟨n, i, hn, hid⟩
    exact ⟨i, List.mem_of_getElem? hn, hid⟩

theorem occurs_append : Occurs (is ++ js) id ↔ Occurs is id ∨ Occurs js id := by
  simp [Occurs, or_and_right, exists_or]

theorem before_append : Before (is ++ js) v w ↔
    Before is v w ∨ Occurs is v ∧ Occurs js w ∨ Before js v w := by
  induction is with
  | nil => simp [Before, Occurs]
  | cons i is ih =>
    have hcons : Occurs (i :: is) v ↔ v ∈ i.ids ∨ Occurs is v := by simp [Occurs]
    rw [List.cons_append, Before, Before, ih, occurs_append, hcons]
    tauto

theorem before_iff : Before is v w ↔ ∃ n m, n < m ∧ OccursAt is v n ∧ OccursAt is w m := by
  induction is with
  | nil => simp [Before, OccursAt]
  | cons i is ih =>
    rw [Before, ih]
    constructor
    · rintro (⟨hv, hw⟩ | ⟨n, m, hnm, hn, hm⟩)
      · obtain ⟨m, hm⟩ := occurs_iff.mp hw
        exact ⟨0, m + 1, by omega, ⟨i, rfl, hv⟩, hm⟩
      · exact ⟨n + 1, m + 1, by omega, hn, hm⟩
    · rintro ⟨n, m, hnm, hn, hm⟩
      obtain ⟨m, rfl⟩ : ∃ m', m = m' + 1 := ⟨m - 1, by omega⟩
      cases n with
      | zero =>
        obtain ⟨j, hj, hv⟩ := hn
        cases hj
        exact .inl ⟨hv, occurs_iff.mpr ⟨m, hm⟩⟩
      | succ n => exact .inr ⟨n, m, by omega, hn, hm⟩

theorem occurs_tail_iff : Occurs is.tail id ↔ ∃ n, 0 < n ∧ OccursAt is id n := by
  cases is with
  | nil => simp [Occurs, OccursAt]
  | cons i is =>
    rw [List.tail_cons, occurs_iff]
    constructor
    · rintro ⟨n, hn⟩
      exact ⟨n + 1, by omega, hn⟩
    · rintro ⟨n, hpos, hn⟩
      obtain ⟨n, rfl⟩ : ∃ n', n = n' + 1 := ⟨n - 1, by omega⟩
      exact ⟨n, hn⟩

end lists

namespace Function

variable {t : Target} {f : Function} {ranges : List LiveRange} {bound bound' : List (RegId × RegId)}

/-- The ids of an instruction behind its first operand. -/
def otherIds (i : Instruction) : List RegId := i.operands.tail.filterMap (·.unallocated?)

theorem returned?_eq_some {i : Instruction} {id : RegId} {ty : LowType}
    (h : returned? i = some (id, ty)) :
    i.isReturn ∧ ∃ value rest, i.operands = value :: rest ∧ (value.isVirtual ∨ value.isParameter) ∧
      value.unallocated? = some id ∧ value.ty = ty := by
  obtain ⟨value, hvalue, h⟩ := Option.bind_eq_some_iff.mp h
  obtain ⟨hop, hkind⟩ := Option.filter_eq_some_iff.mp hvalue
  obtain ⟨id', hid, he⟩ := Option.map_eq_some_iff.mp h
  cases he
  simp only [Bool.and_eq_true, Bool.or_eq_true] at hkind
  refine ⟨hkind.1, value, i.operands.tail, ?_, hkind.2, hid, rfl⟩
  rw [Instruction.operand?] at hop
  cases hops : i.operands with
  | nil => simp [hops] at hop
  | cons o os =>
    rw [hops] at hop
    cases hop
    rfl

theorem ids_of_returned? {i : Instruction} {id : RegId} {ty : LowType}
    (h : returned? i = some (id, ty)) : i.ids = id :: otherIds i := by
  obtain ⟨-, value, rest, hops, -, hid, -⟩ := returned?_eq_some h
  rw [Instruction.ids, otherIds, hops, List.filterMap_cons_some hid, List.tail_cons]

/-- A return with a move becomes two instructions: the first mentions the returned id, and the
second the other ids. -/
theorem moveReturn_some {i : Instruction} {id : RegId} {ty : LowType}
    (h : returned? i = some (id, ty)) (home : RegId) :
    ∃ move ret, moveReturn t i (some home) = [move, ret] ∧ move.ids = [id] ∧
      ret.ids = otherIds i := by
  obtain ⟨-, value, rest, hops, -, hid, -⟩ := returned?_eq_some h
  have hvalue : i.operand? 0 = some value := by simp [Instruction.operand?, hops]
  simp only [moveReturn, hvalue]
  refine ⟨_, _, rfl, ?_, ?_⟩
  · rw [Instruction.ids, Instruction.generic, Instruction.make, List.filterMap_cons_none rfl,
      List.filterMap_cons_some hid, List.filterMap_nil]
  · rw [Instruction.ids, otherIds, hops, Instruction.replaceOperand, Instruction.withOperands, hops,
      List.set_cons_zero, List.filterMap_cons_none rfl, List.tail_cons]

@[simp] theorem moveReturn_none (i : Instruction) : moveReturn t i none = [i] := rfl

namespace Plan

variable {plan : List (Instruction × Option RegId)} {v w id : RegId}

def code (t : Target) (plan : List (Instruction × Option RegId)) : List Instruction :=
  plan.flatMap fun e => moveReturn t e.1 e.2

/-- Every move of the plan belongs to a return of an id. -/
def Movable (plan : List (Instruction × Option RegId)) : Prop :=
  ∀ i reg, (i, some reg) ∈ plan → ∃ id ty, returned? i = some (id, ty)

theorem movable (h : Plan t f ranges bound plan bound') : Movable plan := by
  intro i reg hmem
  obtain ⟨id, ty, hret, -⟩ := h.moved_elsewhere hmem
  exact ⟨id, ty, hret⟩

theorem occurs_moveReturn {i : Instruction} {home : Option RegId} (h : Movable [(i, home)]) :
    Occurs (moveReturn t i home) id ↔ id ∈ i.ids := by
  cases home with
  | none => simp [Occurs]
  | some reg =>
    obtain ⟨id', ty, hret⟩ := h i reg (by simp)
    obtain ⟨move, ret, hcode, hmove, hother⟩ := moveReturn_some (t := t) hret reg
    rw [hcode, ids_of_returned? hret, Occurs]
    simp [hmove, hother]

theorem before_moveReturn {i : Instruction} {home : Option RegId} (h : Movable [(i, home)]) :
    Before (moveReturn t i home) v w ↔
      ∃ reg ty, home = some reg ∧ returned? i = some (v, ty) ∧ w ∈ otherIds i := by
  cases home with
  | none => simp [Before, Occurs]
  | some reg =>
    obtain ⟨id', ty, hret⟩ := h i reg (by simp)
    obtain ⟨move, ret, hcode, hmove, hother⟩ := moveReturn_some (t := t) hret reg
    rw [hcode, hret]
    simp only [Before, Occurs, hmove, List.mem_singleton, exists_eq_left, hother, Option.some.injEq,
      Prod.mk.injEq]
    constructor
    · rintro (⟨rfl, hw⟩ | h)
      · exact ⟨reg, ty, rfl, ⟨rfl, rfl⟩, hw⟩
      · simp at h
    · rintro ⟨_, _, -, ⟨rfl, -⟩, hw⟩
      exact .inl ⟨rfl, hw⟩

theorem code_cons (e : Instruction × Option RegId) :
    code t (e :: plan) = moveReturn t e.1 e.2 ++ code t plan := by
  simp [code]

theorem movable_cons {e : Instruction × Option RegId} (h : Movable (e :: plan)) :
    Movable [e] ∧ Movable plan :=
  ⟨fun i reg hmem => h i reg (by simp_all), fun i reg hmem => h i reg (by simp [hmem])⟩

theorem occurs_code (h : Movable plan) : Occurs (code t plan) id ↔ Occurs (plan.map (·.1)) id := by
  induction plan with
  | nil => rfl
  | cons e plan ih =>
    obtain ⟨he, hrest⟩ := movable_cons h
    rw [code_cons, occurs_append, ih hrest, occurs_moveReturn he]
    simp [Occurs]

/-- What comes first in the code of a plan came first before, or is the value of a return with a
move that mentions both. -/
theorem before_code (h : Movable plan) (hbefore : Before (code t plan) v w) :
    Before (plan.map (·.1)) v w ∨
      ∃ i reg ty, (i, some reg) ∈ plan ∧ returned? i = some (v, ty) ∧ w ∈ otherIds i := by
  induction plan with
  | nil => exact .inl hbefore
  | cons e plan ih =>
    obtain ⟨he, hrest⟩ := movable_cons h
    rw [code_cons, before_append, before_moveReturn he, occurs_moveReturn he,
      occurs_code hrest] at hbefore
    rcases hbefore with ⟨reg, ty, hhome, hret, hw⟩ | ⟨hv, hw⟩ | hbefore
    · exact .inr ⟨e.1, reg, ty, by simp [← hhome], hret, hw⟩
    · exact .inl (.inl ⟨hv, hw⟩)
    · rcases ih hrest hbefore with hbefore | ⟨i, reg, ty, hmem, hret, hw⟩
      · exact .inl (.inr hbefore)
      · exact .inr ⟨i, reg, ty, by simp [hmem], hret, hw⟩

/-- What comes behind the first instruction of the code of a plan did so before, or the first
instruction is a return with a move. -/
theorem occurs_tail_code (h : Movable plan) (hoccurs : Occurs (code t plan).tail id) :
    Occurs (plan.map (·.1)).tail id ∨ ∃ i reg rest, plan = (i, some reg) :: rest := by
  cases plan with
  | nil => exact .inl hoccurs
  | cons e plan =>
    obtain ⟨i, home⟩ := e
    cases home with
    | none =>
      left
      rw [code_cons, moveReturn_none] at hoccurs
      exact (occurs_code (movable_cons h).2).mp hoccurs
    | some reg => exact .inr ⟨i, reg, plan, rfl⟩

end Plan

/-! ## Plans of functions -/

theorem bindInstructions_plan {is out : List Instruction}
    (h : bindInstructions t f ranges bound is = .ok (bound', out)) :
    ∃ plan, Plan t f ranges bound plan bound' ∧ plan.map (·.1) = is ∧ out = Plan.code t plan := by
  induction is generalizing bound out with
  | nil =>
    cases h
    exact ⟨[], .nil _, rfl, rfl⟩
  | cons i is ih =>
    rw [bindInstructions] at h
    obtain ⟨⟨bound₁, home⟩, hstep, h⟩ := bind_eq_ok.mp h
    obtain ⟨⟨bound₂, rest⟩, hrest, h⟩ := bind_eq_ok.mp h
    cases h
    obtain ⟨plan, hplan, rfl, rfl⟩ := ih hrest
    exact ⟨(i, home) :: plan, .cons hstep hplan, rfl, by rw [Plan.code_cons]⟩

theorem bindBlocks_plan {blocks blocks' : List Block}
    (h : bindBlocks t f ranges bound blocks = .ok (bound', blocks')) :
    ∃ plan, Plan t f ranges bound plan bound' ∧
      plan.map (·.1) = blocks.flatMap (·.instructions) ∧
      blocks'.flatMap (·.instructions) = Plan.code t plan := by
  induction blocks generalizing bound blocks' with
  | nil =>
    cases h
    exact ⟨[], .nil _, rfl, rfl⟩
  | cons block blocks ih =>
    rw [bindBlocks] at h
    obtain ⟨⟨bound₁, out⟩, hblock, h⟩ := bind_eq_ok.mp h
    obtain ⟨⟨bound₂, rest⟩, hrest, h⟩ := bind_eq_ok.mp h
    cases h
    obtain ⟨plan, hplan, hfst, rfl⟩ := bindInstructions_plan hblock
    obtain ⟨plan', hplan', hfst', hcode⟩ := ih hrest
    refine ⟨plan ++ plan', hplan.append hplan', ?_, ?_⟩
    · rw [List.map_append, hfst, hfst', List.flatMap_cons]
    · rw [List.flatMap_cons, hcode, Plan.code, Plan.code, Plan.code, List.flatMap_append]

/-- The function with bound returns follows a plan for its instructions, and is otherwise
unchanged. -/
theorem bindReturns_plan {g : Function} (h : bindReturns t f bound = .ok (bound', g)) :
    ∃ plan, Plan t f f.liveRanges bound plan bound' ∧ plan.map (·.1) = f.instructions ∧
      g.instructions = Plan.code t plan ∧ g = { f with blocks := g.blocks } := by
  rw [bindReturns] at h
  obtain ⟨⟨bound₁, blocks⟩, hblocks, h⟩ := bind_eq_ok.mp h
  cases h
  obtain ⟨plan, hplan, hfst, hcode⟩ := bindBlocks_plan hblocks
  exact ⟨plan, hplan, hfst, hcode, rfl⟩

end Function

end Retarget.Machine
