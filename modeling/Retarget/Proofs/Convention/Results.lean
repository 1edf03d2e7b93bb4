import Retarget.Proofs.Lowering.Runs
import Retarget.Proofs.Registers

/-!
# Aggregate results

A return loads the pieces of an aggregate into the result registers, and a call with an aggregate
result stores the result registers to a frame object.  The return insists on a register for every
piece; the call only looks at the size of the aggregate and stores as many pieces as there are
registers.  The two agree for every aggregate but those of seven bytes on RV32, which have three
pieces for two registers (`results_agree_iff`).
-/

namespace Retarget.Lowering

open Machine

/-! ## Pieces -/

/-- Pieces one after the other leave no byte out. -/
theorem exists_mem_piecesFrom (registerBytes bytes offset b : Nat) (hlow : offset ≤ b)
    (hhigh : b < offset + bytes) : ∃ p ∈ piecesFrom offset (pieceSizes registerBytes bytes),
      p.offset ≤ b ∧ b < p.offset + p.ty.byteSize := by
  induction bytes using Nat.strongRecOn generalizing offset with
  | ind bytes ih =>
    have hne : bytes ≠ 0 := by omega
    have hpos := pieceSize_pos registerBytes bytes
    rw [pieceSizes, if_neg hne, piecesFrom]
    by_cases hfirst : b < offset + pieceSize registerBytes bytes
    · refine ⟨_, List.mem_cons_self, ?_⟩
      simp only [LowType.integer, LowType.byteSize]
      omega
    · obtain ⟨p, hp, hcovers⟩ := ih (bytes - pieceSize registerBytes bytes) (by omega)
        (offset + pieceSize registerBytes bytes) (by omega) (by omega)
      exact ⟨p, List.mem_cons_of_mem _ hp, hcovers⟩

theorem exists_mem_pieces (registerBytes : Nat) {bytes b : Nat} (h : b < bytes) :
    ∃ p ∈ pieces registerBytes bytes, p.offset ≤ b ∧ b < p.offset + p.ty.byteSize :=
  exists_mem_piecesFrom registerBytes bytes 0 b (Nat.zero_le b) (by omega)

theorem length_pieces_le_results_iff (a : Arch) {bytes : Nat}
    (h : bytes * 8 ≤ a.target.convention.maxAggregateBits) :
    (pieces a.target.pointerBytes bytes).length ≤ a.target.convention.results.length ↔
      ¬(a = .riscv32 ∧ bytes = 7) := by
  cases a with
  | aarch64 =>
    have hall : ∀ n < 17, (pieces 8 n).length ≤ 8 := by decide +kernel
    have hlt : bytes < 17 := by
      have hle : bytes * 8 ≤ 128 := h
      omega
    exact iff_of_true (hall bytes hlt) nofun
  | riscv32 =>
    have hall : ∀ n < 9, (pieces 4 n).length ≤ 2 ↔ n ≠ 7 := by decide +kernel
    have hlt : bytes < 9 := by
      have hle : bytes * 8 ≤ 64 := h
      omega
    refine (hall bytes hlt).trans ?_
    simp

/-! ## Transfers -/

/-- A piece of a frame object that travels in a register. -/
structure Transfer where
  offset : Int
  ty : LowType
  reg : RegId
deriving DecidableEq

/-- What a register and an operand of a frame object have to do with each other. -/
def Transfer.of? (slot : Slot) (place register : Operand) : Option Transfer :=
  match place.kind, register.kind with
  | .stack slot' offset, .physicalReg reg =>
    if slot' = slot then some ⟨offset, place.ty, reg⟩ else none
  | _, _ => none

/-- What an instruction stores from a register to a frame object. -/
def Transfer.stored? (slot : Slot) (i : Instruction) : Option Transfer :=
  match i.generic?, i.operands with
  | some .store, [place, register] => Transfer.of? slot place register
  | _, _ => none

/-- What an instruction loads from a frame object into a register. -/
def Transfer.loaded? (slot : Slot) (i : Instruction) : Option Transfer :=
  match i.generic?, i.operands with
  | some .load, [register, place] => Transfer.of? slot place register
  | _, _ => none

/-- The transfers of the pieces of an aggregate, as far as there are registers. -/
def Scope.transfers (c : Scope) (ps : List Piece) (registers : List RegId) : List Transfer :=
  (ps.zip registers).map fun (p, root) =>
    ⟨p.offset, p.ty, c.target.registers.withWidth root p.ty.bits⟩

theorem Transfer.of?_piece (c : Scope) (slot : Slot) (p : Piece) (root : RegId) :
    Transfer.of? slot (p.of (.stack slot 0 c.target.pointerType)) (c.physical root p.ty) =
      some ⟨p.offset, p.ty, c.target.registers.withWidth root p.ty.bits⟩ := by
  simp [Transfer.of?, Piece.of, Operand.stack, Scope.physical, Operand.physicalReg]

def Scope.resultStores (c : Scope) (slot : Slot) (ps : List Piece) : List Instruction :=
  (ps.zip c.target.convention.results).map fun (p, root) =>
    .generic .store [p.of (.stack slot 0 c.target.pointerType), c.physical root p.ty]

def Scope.resultLoads (c : Scope) (slot : Slot) (ps : List Piece) : List Instruction :=
  (ps.zip c.target.convention.results).map fun (p, root) =>
    .generic .load [c.physical root p.ty, p.of (.stack slot 0 c.target.pointerType)]

theorem Scope.map_resultStores (c : Scope) (slot : Slot) (ps : List Piece) :
    (c.resultStores slot ps).map (Transfer.stored? slot) =
      (c.transfers ps c.target.convention.results).map some := by
  rw [resultStores, transfers, List.map_map, List.map_map]
  exact List.map_congr_left fun part _ => Transfer.of?_piece c slot part.1 part.2

theorem Scope.map_resultLoads (c : Scope) (slot : Slot) (ps : List Piece) :
    (c.resultLoads slot ps).map (Transfer.loaded? slot) =
      (c.transfers ps c.target.convention.results).map some := by
  rw [resultLoads, transfers, List.map_map, List.map_map]
  exact List.map_congr_left fun part _ => Transfer.of?_piece c slot part.1 part.2

/-! ## Calls and returns -/

/-- A value that is held in a frame object, and not in registers. -/
structure State.Holds (s : State) (value : Ir.Value) (slot : Slot) : Prop where
  frameObject : s.frameObject? value = some slot
  unregistered : s.homeRegisters? value = none

variable {c : Scope} {s s' : State} {ty : Ir.Ty}

/-- The state behind the stores of an aggregate result of `bytes` bytes. -/
def Scope.received (c : Scope) (result : Ir.TempId) (bytes : Nat) (s : State) : State :=
  let slot : Slot := ⟨s.function.nextId⟩
  { s with
    function := { s.function with
      nextId := s.function.nextId + 1
      frame := s.function.frame.insert slot (bytes % Word.modulus 32) }
    code := s.code ++ (c.resultStores slot (pieces c.target.pointerBytes bytes)).toArray
    aggregates := (.temp result, .slot slot) :: s.aggregates }

theorem run_receiveAggregate_eq_ok (a : Arch) (hc : c.target = a.target) {callee : String}
    {result : Ir.TempId} (hid : s.function.nextId + 1 < Word.modulus 32) :
    (c.receiveAggregate callee result ty).run s = .ok ((), s') ↔
      ∃ bytes, ty.size c.target.pointerBytes = .ok bytes ∧
        bytes * 8 ≤ c.target.convention.maxAggregateBits ∧ s' = c.received result bytes s := by
  have hstores : ∀ slot bytes s₁,
      (((pieces c.target.pointerBytes bytes).zip c.target.convention.results).forM fun (p, root) =>
        emit .store [p.of (.stack slot 0 c.target.pointerType), c.physical root p.ty]).run s₁ =
      .ok ((), s₁.append (c.resultStores slot (pieces c.target.pointerBytes bytes))) :=
    fun slot bytes s₁ => run_forM_emit (fun _ _ _ => run_emit _ _) s₁
  rw [Scope.receiveAggregate, run_bind_eq_ok]
  constructor
  · rintro ⟨fits, s₁, hrun, h⟩
    obtain ⟨bytes, hsize, -, rfl, rfl⟩ := run_fitsRegisters_eq_ok.mp hrun
    by_cases hfits : bytes * 8 ≤ c.target.convention.maxAggregateBits
    · rw [decide_eq_true hfits] at h
      obtain ⟨bytes', s₂, hrun, h⟩ := run_bind_eq_ok.mp h
      obtain ⟨hsize', rfl⟩ := run_size_eq_ok.mp hrun
      cases hsize.symm.trans hsize'
      obtain ⟨slot, s₃, hrun, h⟩ := run_bind_eq_ok.mp h
      obtain ⟨-, rfl, rfl⟩ := run_freshSlot_eq_ok.mp hrun
      obtain ⟨ps, s₄, hrun, h⟩ := run_bind_eq_ok.mp h
      obtain ⟨bytes', hsize', rfl, rfl⟩ := run_piecesOf_eq_ok.mp hrun
      cases hsize.symm.trans hsize'
      rw [StateT.run_bind, hstores, ok_bind] at h
      cases h
      exact ⟨bytes, hsize, hfits, rfl⟩
    · rw [decide_eq_false hfits] at h
      cases h
  · rintro ⟨bytes, hsize, hfits, rfl⟩
    have hlt : bytes * 8 < Word.modulus 64 :=
      Nat.lt_of_le_of_lt hfits (hc ▸ a.maxAggregateBits_lt)
    refine ⟨_, s, run_fitsRegisters_eq_ok.mpr ⟨bytes, hsize, hlt, rfl, rfl⟩, ?_⟩
    rw [decide_eq_true hfits]
    refine run_bind_eq_ok.mpr ⟨bytes, s, run_size_eq_ok.mpr ⟨hsize, rfl⟩, ?_⟩
    refine run_bind_eq_ok.mpr ⟨_, _, run_freshSlot_eq_ok.mpr ⟨hid, rfl, rfl⟩, ?_⟩
    refine run_bind_eq_ok.mpr ⟨_, _, run_piecesOf_eq_ok.mpr ⟨bytes, hsize, rfl, rfl⟩, ?_⟩
    rw [StateT.run_bind, hstores, ok_bind]
    rfl

theorem run_lowerReturn_eq_ok (a : Arch) (hc : c.target = a.target) {value : Ir.Value} {slot : Slot}
    (hty : value.ty.isAggregate) (hvalue : s.Holds value slot) :
    (c.lowerReturn (some value)).run s = .ok ((), s') ↔
      ∃ bytes, value.ty.size c.target.pointerBytes = .ok bytes ∧
        bytes * 8 ≤ c.target.convention.maxAggregateBits ∧
        (pieces c.target.pointerBytes bytes).length ≤ c.target.convention.results.length ∧
        s' = s.append (c.resultLoads slot (pieces c.target.pointerBytes bytes) ++
          [.generic .ret []]) := by
  have hloads : ∀ bytes s₁, ((((pieces c.target.pointerBytes bytes).zip
      c.target.convention.results).map fun part =>
        (c.physical part.2 part.1.ty, part.1.of (.stack slot 0 c.target.pointerType))).forM
          fun part => emitInto part.1 part.2).run s₁ =
      .ok ((), s₁.append (c.resultLoads slot (pieces c.target.pointerBytes bytes))) := by
    intro bytes s₁
    rw [run_forM_emit fun _ _ _ => run_emitInto _ _, List.map_map]
    rfl
  rw [Scope.lowerReturn]
  dsimp only
  rw [if_pos hty, run_bind_eq_ok]
  constructor
  · rintro ⟨fits, s₁, hrun, h⟩
    obtain ⟨bytes, hsize, -, rfl, rfl⟩ := run_fitsRegisters_eq_ok.mp hrun
    by_cases hfits : bytes * 8 ≤ c.target.convention.maxAggregateBits
    · rw [decide_eq_true hfits] at h
      obtain ⟨parts, s₂, hrun, h⟩ := run_bind_eq_ok.mp h
      obtain ⟨bytes', hsize', hle, hparts⟩ := run_aggregateParts_eq_ok.mp hrun
      cases hsize.symm.trans hsize'
      rcases hparts with ⟨home, hhome, -, -⟩ | ⟨-, location, hlocation, rfl⟩
      · rw [hvalue.unregistered] at hhome
        cases hhome
      · rw [run_location_of_frameObject? hvalue.frameObject] at hlocation
        cases hlocation
        rw [StateT.run_bind, hloads, ok_bind] at h
        rw [run_emit] at h
        cases h
        exact ⟨bytes, hsize, hfits, hle, State.append_append _ _ _⟩
    · rw [decide_eq_false hfits] at h
      cases h
  · rintro ⟨bytes, hsize, hfits, hle, rfl⟩
    have hlt : bytes * 8 < Word.modulus 64 :=
      Nat.lt_of_le_of_lt hfits (hc ▸ a.maxAggregateBits_lt)
    refine ⟨_, s, run_fitsRegisters_eq_ok.mpr ⟨bytes, hsize, hlt, rfl, rfl⟩, ?_⟩
    rw [decide_eq_true hfits]
    refine run_bind_eq_ok.mpr ⟨_, s, run_aggregateParts_eq_ok.mpr ⟨bytes, hsize, hle, .inr
      ⟨hvalue.unregistered, _, run_location_of_frameObject? hvalue.frameObject, rfl⟩⟩, ?_⟩
    rw [StateT.run_bind, hloads, ok_bind, run_emit, State.append_append]

theorem run_lowerCall_some {name : String} {args : List Ir.Value} {returnBuffer : Option Nat}
    (result : Ir.TempId) (hty : ty.isAggregate)
    (h : (c.lowerCall none name args ty returnBuffer).run s = .ok ((), s')) :
    (c.lowerCall (some result) name args ty returnBuffer).run s =
      (c.receiveAggregate name result ty).run s' := by
  unfold Scope.lowerCall at h ⊢
  obtain ⟨_, s₁, hmark, h⟩ := run_bind_eq_ok.mp h
  obtain ⟨placed, s₂, hplace, h⟩ := run_bind_eq_ok.mp h
  obtain ⟨_, s₃, hmoves, h⟩ := run_bind_eq_ok.mp h
  obtain ⟨_, s₄, hcall, h⟩ := run_bind_eq_ok.mp h
  cases h
  rw [StateT.run_bind, hmark, ok_bind, StateT.run_bind, hplace, ok_bind, StateT.run_bind, hmoves,
    ok_bind, StateT.run_bind, hcall, ok_bind]
  exact congrArg (StateT.run · s') (if_pos hty)

/-! ## Agreement -/

/-- What a caller and a callee do for one aggregate result: `called` is the state behind the call
itself, `call` the outcome of the call with its result, `value` the frame object that is returned
from the state `entered`, and `ret` the outcome of the return. -/
structure ResultsAgree (t : Target) (ty : Ir.Ty) (called : State) (call : Result (Unit × State))
    (result : Ir.TempId) (entered : State) (value : Slot) (ret : Result (Unit × State)) : Prop where
  succeeds : (∃ s, call = .ok ((), s)) ↔ ∃ s, ret = .ok ((), s)
  transfers : ∀ s s', call = .ok ((), s) → ret = .ok ((), s') →
    ∃ bytes slot stores loads, ∃ transfers : List Transfer,
      ty.size t.pointerBytes = .ok bytes ∧
      -- Behind the call there are stores to the frame object of the result, and nothing else.
      s.homeSlot? (.temp result) = some slot ∧ s.code.toList = called.code.toList ++ stores ∧
      stores.map (Transfer.stored? slot) = transfers.map some ∧
      -- Before the return there are loads of the same pieces into the same registers.
      s'.code.toList = entered.code.toList ++ loads ++ [.generic .ret []] ∧
      loads.map (Transfer.loaded? value) = transfers.map some ∧
      (transfers.map fun p => t.registers.root p.reg).Nodup ∧
      -- No byte is left out.
      ∀ b < bytes, ∃ p ∈ transfers, p.offset ≤ b ∧ b < p.offset + p.ty.byteSize

theorem exists_mem_transfers {bytes b : Nat} (hb : b < bytes)
    (hle : (pieces c.target.pointerBytes bytes).length ≤ c.target.convention.results.length) :
    ∃ p ∈ c.transfers (pieces c.target.pointerBytes bytes) c.target.convention.results,
      p.offset ≤ b ∧ b < p.offset + p.ty.byteSize := by
  obtain ⟨p, hp, hcovers⟩ := exists_mem_pieces c.target.pointerBytes hb
  rw [← List.map_fst_zip hle] at hp
  obtain ⟨part, hpart, rfl⟩ := List.mem_map.mp hp
  exact ⟨_, List.mem_map_of_mem hpart, hcovers⟩

theorem results_nodup (a : Arch) :
    (a.target.convention.results.map a.target.registers.root).Nodup := by
  cases a <;> decide +kernel

theorem map_snd_zip_sublist {α β : Type} (xs : List α) (ys : List β) :
    ((xs.zip ys).map (·.2)).Sublist ys := by
  induction xs generalizing ys with
  | nil => simp
  | cons x xs ih =>
    cases ys with
    | nil => simp
    | cons y ys => exact (ih ys).cons_cons y

theorem transfers_nodup (a : Arch) (hc : c.target = a.target) (ps : List Piece) :
    ((c.transfers ps c.target.convention.results).map
      fun p => a.target.registers.root p.reg).Nodup := by
  have hroots : (c.transfers ps c.target.convention.results).map
      (fun p => a.target.registers.root p.reg) =
      ((ps.zip a.target.convention.results).map (·.2)).map a.target.registers.root := by
    rw [Scope.transfers, hc, List.map_map, List.map_map]
    exact List.map_congr_left fun part _ => a.root_withWidth part.2 part.1.ty.bits
  rw [hroots]
  exact (results_nodup a).sublist ((map_snd_zip_sublist ps _).map _)

section Agreement

variable (a : Arch) {caller callee : Scope} (hcaller : caller.target = a.target)
  (hcallee : callee.target = a.target) {name : String} {args : List Ir.Value}
  {returnBuffer : Option Nat} {result : Ir.TempId} {called : State} {value : Ir.Value} {slot : Slot}
  (hty : value.ty.isAggregate)
  (hcall : (caller.lowerCall none name args value.ty returnBuffer).run s = .ok ((), called))
  (hid : called.function.nextId + 1 < Word.modulus 32) (hholds : s'.Holds value slot)
include hcaller hcallee hty hcall hid hholds

/-- With too few registers, the call takes what the return does not hand over. -/
theorem not_resultsAgree {bytes : Nat} (hsize : value.ty.size a.target.pointerBytes = .ok bytes)
    (hfits : bytes * 8 ≤ a.target.convention.maxAggregateBits)
    (hlt : a.target.convention.results.length < (pieces a.target.pointerBytes bytes).length) :
    ¬ResultsAgree a.target value.ty called
      ((caller.lowerCall (some result) name args value.ty returnBuffer).run s) result
      s' slot ((callee.lowerReturn (some value)).run s') := by
  intro hagree
  rw [run_lowerCall_some result hty hcall] at hagree
  obtain ⟨s₂, hreturned⟩ := hagree.succeeds.mp ⟨_, (run_receiveAggregate_eq_ok a hcaller hid).mpr
    ⟨bytes, hcaller ▸ hsize, hcaller ▸ hfits, rfl⟩⟩
  obtain ⟨bytes', hsize', -, hle, -⟩ := (run_lowerReturn_eq_ok a hcallee hty hholds).mp hreturned
  rw [hcallee] at hsize' hle
  cases hsize.symm.trans hsize'
  omega

/-- With a register for every piece, the call takes what the return hands over. -/
theorem resultsAgree (hpieces : ∀ bytes, value.ty.size a.target.pointerBytes = .ok bytes →
      bytes * 8 ≤ a.target.convention.maxAggregateBits →
      (pieces a.target.pointerBytes bytes).length ≤ a.target.convention.results.length) :
    ResultsAgree a.target value.ty called
      ((caller.lowerCall (some result) name args value.ty returnBuffer).run s) result
      s' slot ((callee.lowerReturn (some value)).run s') := by
  rw [run_lowerCall_some result hty hcall]
  constructor
  · constructor
    · rintro ⟨s₂, hrun⟩
      obtain ⟨bytes, hsize, hfits, -⟩ := (run_receiveAggregate_eq_ok a hcaller hid).mp hrun
      rw [hcaller] at hsize hfits
      exact ⟨_, (run_lowerReturn_eq_ok a hcallee hty hholds).mpr
        ⟨bytes, hcallee ▸ hsize, hcallee ▸ hfits, hcallee ▸ hpieces bytes hsize hfits, rfl⟩⟩
    · rintro ⟨s₂, hrun⟩
      obtain ⟨bytes, hsize, hfits, -, -⟩ := (run_lowerReturn_eq_ok a hcallee hty hholds).mp hrun
      rw [hcallee] at hsize hfits
      exact ⟨_, (run_receiveAggregate_eq_ok a hcaller hid).mpr
        ⟨bytes, hcaller ▸ hsize, hcaller ▸ hfits, rfl⟩⟩
  · intro s₂ s₂' hreceived hreturned
    obtain ⟨bytes, hsize, hfits, rfl⟩ := (run_receiveAggregate_eq_ok a hcaller hid).mp hreceived
    obtain ⟨bytes', hsize', -, hle, rfl⟩ :=
      (run_lowerReturn_eq_ok a hcallee hty hholds).mp hreturned
    rw [hcaller] at hsize
    rw [hcallee] at hsize'
    cases hsize.symm.trans hsize'
    have htransfers : caller.transfers (pieces caller.target.pointerBytes bytes)
        caller.target.convention.results = callee.transfers
          (pieces callee.target.pointerBytes bytes) callee.target.convention.results := by
      rw [Scope.transfers, Scope.transfers, hcaller, hcallee]
    refine ⟨bytes, ⟨called.function.nextId⟩, _, _, _, hsize, ?_, ?_,
      (caller.map_resultStores _ _).trans (congrArg _ htransfers), ?_, callee.map_resultLoads _ _,
      transfers_nodup a hcallee _, fun b hb => exists_mem_transfers hb hle⟩
    · simp [State.homeSlot?, Scope.received]
    · simp [Scope.received]
    · simp

/-- **Caller and callee agree on an aggregate result exactly when** it is not one of seven bytes on
RV32. -/
theorem results_agree_iff :
    ResultsAgree a.target value.ty called
        ((caller.lowerCall (some result) name args value.ty returnBuffer).run s) result
        s' slot ((callee.lowerReturn (some value)).run s') ↔
      ¬(a = .riscv32 ∧ value.ty.size a.target.pointerBytes = .ok 7) := by
  constructor
  · rintro hagree ⟨rfl, hsize⟩
    exact not_resultsAgree .riscv32 hcaller hcallee hty hcall hid hholds hsize (by decide)
      (by decide +kernel) hagree
  · intro hne
    refine resultsAgree a hcaller hcallee hty hcall hid hholds fun bytes hsize hfits => ?_
    rw [length_pieces_le_results_iff a hfits]
    exact fun ⟨harch, hseven⟩ => hne ⟨harch, hseven ▸ hsize⟩

end Agreement

/-- A function that calls `g`, with nothing in it so far. -/
def calling : State where
  function := { name := "f" }

/-- A function that has a temporary in a frame object. -/
def holding : State where
  function := { name := "g", nextId := 1 }
  aggregates := [(.temp 0, .slot ⟨0⟩)]

theorem holding_holds (ty : Ir.Ty) : holding.Holds (.temp 0 ty) ⟨0⟩ := ⟨rfl, rfl⟩

def afterCall : State :=
  { calling with
    function := { calling.function with isCaller := true }
    code := #[.generic .call [.function "g"]] }

theorem run_calling (t : Target) (ty : Ir.Ty) :
    (Scope.lowerCall ⟨t, "f"⟩ none "g" [] ty none).run calling = .ok ((), afterCall) := rfl

/-- Fifteen bytes travel in four registers. -/
theorem fifteen_bytes_agree :
    ResultsAgree .aarch64 (.array 15 .i8) afterCall
      ((Scope.lowerCall ⟨.aarch64, "f"⟩ (some 0) "g" [] (.array 15 .i8) none).run calling) 0
      holding ⟨0⟩
      ((Scope.lowerReturn ⟨.aarch64, "g"⟩ (some (.temp 0 (.array 15 .i8)))).run holding) :=
  (results_agree_iff .aarch64 rfl rfl (by decide) (run_calling _ _) (by decide)
    (holding_holds (.array 15 .i8))).mpr nofun

/-- **Seven bytes are taken from two registers, but are not returned** on RV32. -/
theorem seven_bytes_disagree :
    (Scope.lowerCall ⟨.riscv32, "f"⟩ none "g" [] (.array 7 .i8) none).run calling =
      .ok ((), afterCall) ∧
    holding.Holds (.temp 0 (.array 7 .i8)) ⟨0⟩ ∧
    ¬ResultsAgree .riscv32 (.array 7 .i8) afterCall
      ((Scope.lowerCall ⟨.riscv32, "f"⟩ (some 0) "g" [] (.array 7 .i8) none).run calling) 0
      holding ⟨0⟩
      ((Scope.lowerReturn ⟨.riscv32, "g"⟩ (some (.temp 0 (.array 7 .i8)))).run holding) :=
  have hsize : (Ir.Ty.array 7 .i8).size 4 = .ok 7 := by decide
  ⟨run_calling _ _, holding_holds _, not_resultsAgree .riscv32 rfl rfl (by decide)
    (run_calling _ _) (by decide) (holding_holds (.array 7 .i8)) hsize (by decide)
    (by decide +kernel)⟩

end Retarget.Lowering
