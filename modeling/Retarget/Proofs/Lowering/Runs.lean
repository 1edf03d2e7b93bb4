import Retarget.Lowering.Call
import Retarget.Proofs.Checked

/-!
# Runs of lowering steps

What the steps of lowering answer, as equations and equivalences: a step that emits code appends to
the code so far (`State.append`), and a step that fails does so for the reason its check names.
-/

namespace Retarget.Lowering

open Machine

variable {c : Scope} {s s' : State} {α β : Type}

def State.append (s : State) (code : List Instruction) : State :=
  { s with code := s.code ++ code.toArray }

namespace State

@[simp] theorem append_nil (s : State) : s.append [] = s := by
  simp [append]

@[simp] theorem append_append (s : State) (xs ys : List Instruction) :
    (s.append xs).append ys = s.append (xs ++ ys) := by
  simp [append]

@[simp] theorem function_append (s : State) (code : List Instruction) :
    (s.append code).function = s.function := rfl

@[simp] theorem code_append (s : State) (code : List Instruction) :
    (s.append code).code.toList = s.code.toList ++ code := by
  simp [append]

@[simp] theorem homeRegisters?_append (s : State) (code : List Instruction) (value : Ir.Value) :
    (s.append code).homeRegisters? value = s.homeRegisters? value := rfl

@[simp] theorem frameObject?_append (s : State) (code : List Instruction) (value : Ir.Value) :
    (s.append code).frameObject? value = s.frameObject? value := by
  cases value <;> rfl

end State

/-! ## Single steps -/

theorem run_bind_eq_ok {x : Lower α} {g : α → Lower β} {b : β} :
    (x >>= g).run s = .ok (b, s') ↔ ∃ a s₁, x.run s = .ok (a, s₁) ∧ (g a).run s₁ = .ok (b, s') := by
  rw [StateT.run_bind, bind_eq_ok]
  exact Prod.exists

theorem run_get_bind {g : State → Lower β} : (get >>= g).run s = (g s).run s := rfl

theorem run_check_eq_ok {x : Result α} {a : α} :
    (check x).run s = .ok (a, s') ↔ x = .ok a ∧ s' = s := by
  cases x with
  | error e => exact ⟨nofun, nofun⟩
  | ok a' => exact ⟨fun h => by cases h; exact ⟨rfl, rfl⟩, fun ⟨h, h'⟩ => by cases h; cases h'; rfl⟩

@[simp] theorem run_emit (op : GenericOp) (operands : List Operand) :
    (emit op operands).run s = .ok ((), s.append [.generic op operands]) := by
  show Except.ok _ = _
  simp [State.append]

def intoInstruction (dest source : Operand) : Instruction :=
  .generic (if source.isMemory || source.isStack then .load else moveOp dest.ty) [dest, source]

theorem exists_intoInstruction_eq (dest source : Operand) :
    ∃ op ∈ [GenericOp.load, .mov, .movf],
      intoInstruction dest source = .generic op [dest, source] := by
  rw [intoInstruction, moveOp]
  split_ifs <;> exact ⟨_, by simp, rfl⟩

@[simp] theorem run_emitInto (dest source : Operand) :
    (emitInto dest source).run s = .ok ((), s.append [intoInstruction dest source]) :=
  run_emit _ _

theorem run_forM_emit {l : List α} {g : α → Lower Unit} {code : α → Instruction}
    (h : ∀ a ∈ l, ∀ s : State, (g a).run s = .ok ((), s.append [code a])) (s : State) :
    (l.forM g).run s = .ok ((), s.append (l.map code)) := by
  induction l generalizing s with
  | nil =>
    rw [List.map_nil, State.append_nil]
    rfl
  | cons a l ih =>
    rw [List.forM, StateT.run_bind, h a (by simp), ok_bind, ih fun b hb => h b (by simp [hb]),
      State.append_append]
    rfl

theorem fresh_eq_ok_iff {f : Function} {r : RegId × Function} :
    f.fresh = .ok r ↔ f.nextId + 1 < Word.modulus 32 ∧
      r = (f.nextId, { f with nextId := f.nextId + 1 }) := by
  rw [Function.fresh, Word.fit]
  split
  · next hlt => exact ⟨fun h => by cases h; exact ⟨hlt, rfl⟩, fun h => by rw [h.2]; rfl⟩
  · next hge => exact ⟨by rintro ⟨⟩, fun h => absurd h.1 hge⟩

theorem run_create (x : Result (α × Function)) (s : State) :
    (do
      let (a, function) ← check x
      modify fun s => { s with function := function }
      return a : Lower α).run s = x.bind fun r => .ok (r.1, { s with function := r.2 }) := by
  cases x with
  | error e => rfl
  | ok r => rfl

theorem run_freshId_eq_ok {id : RegId} :
    freshId.run s = .ok (id, s') ↔ s.function.nextId + 1 < Word.modulus 32 ∧
      id = s.function.nextId ∧
      s' = { s with function := { s.function with nextId := s.function.nextId + 1 } } := by
  have hrun : freshId.run s = s.function.fresh.bind fun r =>
      .ok (r.1, { s with function := r.2 }) := run_create _ s
  rw [hrun]
  constructor
  · intro h
    obtain ⟨r, hfresh, h⟩ := bind_eq_ok.mp h
    obtain ⟨hlt, rfl⟩ := fresh_eq_ok_iff.mp hfresh
    cases h
    exact ⟨hlt, rfl, rfl⟩
  · rintro ⟨hlt, rfl, rfl⟩
    rw [fresh_eq_ok_iff.mpr ⟨hlt, rfl⟩]
    rfl

theorem run_freshSlot_eq_ok {bytes : Nat} {slot : Slot} :
    (freshSlot bytes).run s = .ok (slot, s') ↔
      s.function.nextId + 1 < Word.modulus 32 ∧ slot = ⟨s.function.nextId⟩ ∧
      s' = { s with function := { s.function with
        nextId := s.function.nextId + 1
        frame := s.function.frame.insert ⟨s.function.nextId⟩ (bytes % Word.modulus 32) } } := by
  have hrun : (freshSlot bytes).run s =
      (s.function.addSlot (bytes % Word.modulus 32)).bind fun r =>
        .ok (r.1, { s with function := r.2 }) := run_create _ s
  rw [hrun]
  constructor
  · intro h
    obtain ⟨⟨slot', f⟩, hslot, h⟩ := bind_eq_ok.mp h
    obtain ⟨r, hfresh, hslot⟩ := bind_eq_ok.mp hslot
    obtain ⟨hlt, rfl⟩ := fresh_eq_ok_iff.mp hfresh
    cases hslot
    cases h
    exact ⟨hlt, rfl, rfl⟩
  · rintro ⟨hlt, rfl, rfl⟩
    rw [Function.addSlot, fresh_eq_ok_iff.mpr ⟨hlt, rfl⟩]
    rfl

theorem run_freshParameter_eq_ok {ty : LowType} {isFloat isReturnBuffer : Bool} {id : RegId} :
    (freshParameter ty isFloat isReturnBuffer).run s = .ok (id, s') ↔
      s.function.nextId + 1 < Word.modulus 32 ∧ id = s.function.nextId ∧
      s' = { s with function := { s.function with
        nextId := s.function.nextId + 1
        params := s.function.params ++ [⟨s.function.nextId, ty, isFloat, isReturnBuffer⟩] } } := by
  have hrun : (freshParameter ty isFloat isReturnBuffer).run s =
      (s.function.addParameter ty isFloat isReturnBuffer).bind fun r =>
        .ok (r.1, { s with function := r.2 }) := run_create _ s
  rw [hrun]
  constructor
  · intro h
    obtain ⟨⟨id', f⟩, hparameter, h⟩ := bind_eq_ok.mp h
    obtain ⟨r, hfresh, hparameter⟩ := bind_eq_ok.mp hparameter
    obtain ⟨hlt, rfl⟩ := fresh_eq_ok_iff.mp hfresh
    cases hparameter
    cases h
    exact ⟨hlt, rfl, rfl⟩
  · rintro ⟨hlt, rfl, rfl⟩
    rw [Function.addParameter, fresh_eq_ok_iff.mpr ⟨hlt, rfl⟩]
    rfl

/-! ## Sizes -/

theorem run_size_eq_ok {ty : Ir.Ty} {bytes : Nat} :
    (c.size ty).run s = .ok (bytes, s') ↔ ty.size c.target.pointerBytes = .ok bytes ∧ s' = s :=
  run_check_eq_ok

theorem run_piecesOf_eq_ok {ty : Ir.Ty} {ps : List Piece} :
    (c.piecesOf ty).run s = .ok (ps, s') ↔
      ∃ bytes, ty.size c.target.pointerBytes = .ok bytes ∧ s' = s ∧
        ps = pieces c.target.pointerBytes bytes := by
  rw [Scope.piecesOf, run_bind_eq_ok]
  constructor
  · rintro ⟨bytes, s₁, hrun, h⟩
    obtain ⟨hsize, rfl⟩ := run_size_eq_ok.mp hrun
    cases h
    exact ⟨bytes, hsize, rfl, rfl⟩
  · rintro ⟨bytes, hsize, rfl, rfl⟩
    exact ⟨bytes, s', run_size_eq_ok.mpr ⟨hsize, rfl⟩, rfl⟩

theorem run_fitsRegisters_eq_ok {ty : Ir.Ty} {fits : Bool} :
    (c.fitsRegisters ty).run s = .ok (fits, s') ↔
      ∃ bytes, ty.size c.target.pointerBytes = .ok bytes ∧ bytes * 8 < Word.modulus 64 ∧ s' = s ∧
        fits = decide (bytes * 8 ≤ c.target.convention.maxAggregateBits) := by
  rw [Scope.fitsRegisters, run_bind_eq_ok]
  constructor
  · rintro ⟨bytes, s₁, hrun, h⟩
    obtain ⟨hsize, rfl⟩ := run_size_eq_ok.mp hrun
    obtain ⟨bits, s₂, hbits, h⟩ := run_bind_eq_ok.mp h
    obtain ⟨hbits, rfl⟩ := run_check_eq_ok.mp hbits
    rw [Word.fit] at hbits
    split at hbits
    · next hlt =>
      cases hbits
      cases h
      exact ⟨bytes, hsize, hlt, rfl, rfl⟩
    · cases hbits
  · rintro ⟨bytes, hsize, hlt, rfl, rfl⟩
    refine ⟨bytes, s', run_size_eq_ok.mpr ⟨hsize, rfl⟩, run_bind_eq_ok.mpr ⟨bytes * 8, s', ?_, rfl⟩⟩
    exact run_check_eq_ok.mpr ⟨by rw [Word.fit, if_pos hlt], rfl⟩

/-! ## Aggregates -/

theorem State.mem_aggregates_of_homeRegisters? {value : Ir.Value} {parts : List (RegId × Piece)}
    (h : s.homeRegisters? value = some parts) :
    ∃ name, (name, Home.registers parts) ∈ s.aggregates := by
  rw [State.homeRegisters?] at h
  split at h
  · next hlookup =>
    cases h
    obtain ⟨name, -, hlookup⟩ := Option.bind_eq_some_iff.mp hlookup
    exact ⟨name, mem_of_lookup_eq_some hlookup⟩
  · cases h

/-- A value that is the address of a frame object is a local, or has its home there. -/
theorem State.frameObject?_cases {value : Ir.Value} {slot : Slot}
    (h : s.frameObject? value = some slot) :
    (∃ id, (id, slot) ∈ s.objects) ∨ ∃ name, (name, Home.slot slot) ∈ s.aggregates := by
  have hhome {name : AggregateName} (h : s.homeSlot? name = some slot) :
      ∃ name, (name, Home.slot slot) ∈ s.aggregates := by
    rw [State.homeSlot?] at h
    split at h
    · next hlookup =>
      cases h
      exact ⟨name, mem_of_lookup_eq_some hlookup⟩
    · cases h
  cases value with
  | temp id ty =>
    rw [State.frameObject?, Option.orElse_eq_orElse, Option.orElse_eq_or,
      Option.or_eq_some_iff] at h
    rcases h with hobject | ⟨-, h⟩
    · exact .inl ⟨id, mem_of_lookup_eq_some hobject⟩
    · exact .inr (hhome h)
  | param name ty => exact .inr (hhome h)
  | _ => cases h

theorem run_location_of_frameObject? {value : Ir.Value} {slot : Slot} {ty : LowType}
    (h : s.frameObject? value = some slot) :
    (c.location value ty).run s = .ok (.stack slot 0 ty, s) := by
  rw [Scope.location, run_get_bind, h]
  rfl

/-- The pieces of an aggregate, when there are as many registers: from the registers it is in, or
from memory. -/
theorem run_aggregateParts_eq_ok {value : Ir.Value} {registers : List RegId}
    {parts : List (Operand × Operand)} :
    (c.aggregateParts value registers).run s = .ok (parts, s') ↔
      ∃ bytes, value.ty.size c.target.pointerBytes = .ok bytes ∧
        (pieces c.target.pointerBytes bytes).length ≤ registers.length ∧
        ((∃ home, s.homeRegisters? value = some home ∧ s' = s ∧
            parts = (home.zip registers).map fun ((reg, p), root) =>
              (c.physical root p.ty, .virtualReg reg p.ty)) ∨
          s.homeRegisters? value = none ∧ ∃ location,
            (c.location value c.target.pointerType).run s = .ok (location, s') ∧
            parts = ((pieces c.target.pointerBytes bytes).zip registers).map fun (p, root) =>
              (c.physical root p.ty, p.of location)) := by
  rw [Scope.aggregateParts, run_bind_eq_ok]
  constructor
  · rintro ⟨ps, s₁, hrun, h⟩
    obtain ⟨bytes, hsize, rfl, rfl⟩ := run_piecesOf_eq_ok.mp hrun
    refine ⟨bytes, hsize, ?_⟩
    by_cases hlt : registers.length < (pieces c.target.pointerBytes bytes).length
    · rw [if_pos hlt] at h
      cases h
    · rw [if_neg hlt, run_get_bind] at h
      refine ⟨Nat.not_lt.mp hlt, ?_⟩
      cases hhome : s₁.homeRegisters? value with
      | some home =>
        rw [hhome] at h
        cases h
        exact .inl ⟨home, rfl, rfl, rfl⟩
      | none =>
        rw [hhome] at h
        obtain ⟨location, s₂, hlocation, h⟩ := run_bind_eq_ok.mp h
        cases h
        exact .inr ⟨rfl, location, hlocation, rfl⟩
  · rintro ⟨bytes, hsize, hle, h⟩
    refine ⟨_, s, run_piecesOf_eq_ok.mpr ⟨bytes, hsize, rfl, rfl⟩, ?_⟩
    rw [if_neg (Nat.not_lt.mpr hle), run_get_bind]
    rcases h with ⟨home, hhome, rfl, rfl⟩ | ⟨hhome, location, hlocation, rfl⟩
    · rw [hhome]
      rfl
    · rw [hhome]
      exact run_bind_eq_ok.mpr ⟨location, s', hlocation, rfl⟩

end Retarget.Lowering
