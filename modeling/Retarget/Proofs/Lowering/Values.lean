import Retarget.Proofs.Convention.Staging
import Retarget.Proofs.Execution.Availability
import Retarget.Proofs.Legality.Meaning

/-!
# What lowered values stand for

Where a run of the machine code stands, a value of the function is held in a register, or it is the
address of a frame object or a symbol, or a constant (`State.bits?`).  The code that lowering emits
to fetch a value leaves its bits in the operand that it answers, and changes new registers besides
(`evaluates_operand`).
-/

namespace Retarget.Lowering

open Machine

variable {M : Interpretation} {c : Scope} {s s' s₁ s₂ : State} {v : Ir.Value} {o : Operand}
  {g : Machine.Function} {σ : Machine.State M}

/-! ## States of lowering -/

/-- Lowering has gone on, and values are where they were.  Temporaries that are new have new
registers. -/
structure State.Continues (s s' : State) : Prop where
  next : s.next ≤ s'.next
  temps : ∀ t r, s.temps.lookup t = some r → s'.temps.lookup t = some r
  fresh : ∀ t r, s'.temps.lookup t = some r → s.temps.lookup t = some r ∨ s.next ≤ r
  same : SameValues s s'

namespace State.Continues

theorem refl (s : State) : s.Continues s :=
  ⟨Nat.le_refl _, fun _ _ h => h, fun _ _ h => .inl h, rfl, rfl, rfl⟩

theorem trans (h : s.Continues s₁) (h' : s₁.Continues s₂) : s.Continues s₂ where
  next := Nat.le_trans h.next h'.next
  temps t r ht := h'.temps t r (h.temps t r ht)
  fresh t r ht := (h'.fresh t r ht).elim (h.fresh t r) fun hle => .inr (Nat.le_trans h.next hle)
  same := h.same.trans h'.same

theorem append (s : State) (code : List Instruction) : s.Continues (s.append code) :=
  ⟨Nat.le_refl _, fun _ _ h => h, fun _ _ h => .inl h, rfl, rfl, rfl⟩

theorem numbered (s : State) : s.Continues s.numbered :=
  ⟨Nat.le_succ _, fun _ _ h => h, fun _ _ h => .inl h, rfl, rfl, rfl⟩

/-- A temporary is known by its register from its first occurrence on. -/
theorem tempReg {t : Ir.TempId} {ty : LowType} (h : (tempReg t ty).run s = .ok (o, s')) :
    s.Continues s' ∧ s'.code = s.code ∧ ∃ r, o = .virtualReg r ty ∧
      s'.temps.lookup t = some r := by
  obtain ⟨hfetches, r, rfl, hr⟩ := Fetches.tempReg h
  suffices hnew : s'.code = s.code ∧
      ∀ t r, s'.temps.lookup t = some r → s.temps.lookup t = some r ∨ s.next ≤ r from
    ⟨⟨hfetches.le, hfetches.temps, hnew.2, hfetches.same⟩, hnew.1, r, rfl, hr⟩
  rw [Lowering.tempReg, run_get_bind] at h
  split at h
  · cases h
    exact ⟨rfl, fun _ _ h => .inl h⟩
  · obtain ⟨_, s₁, hfresh, h⟩ := run_bind_eq_ok.mp h
    obtain ⟨-, rfl, rfl⟩ := run_freshId_eq_ok.mp hfresh
    cases h
    refine ⟨rfl, fun t' r' ht' => ?_⟩
    dsimp only at ht'
    rw [List.lookup_cons] at ht'
    split at ht'
    · cases ht'
      exact .inr (Nat.le_refl _)
    · exact .inl ht'

end State.Continues

/-- A register that was made on the way and belongs to no temporary. -/
structure State.Scratch (s s' : State) (r : RegId) : Prop where
  new : s.next ≤ r
  made : r < s'.next
  unnamed : ∀ t, s'.temps.lookup t ≠ some r

namespace State.Scratch

variable {r : RegId}

theorem of_continues (h : s.Scratch s₁ r) (hle : s₁.Continues s₂) : s.Scratch s₂ r := by
  refine ⟨h.new, Nat.lt_of_lt_of_le h.made hle.next, fun t ht => ?_⟩
  rcases hle.fresh t r ht with hold | hnew
  · exact h.unnamed t hold
  · exact absurd h.made (Nat.not_lt.mpr hnew)

theorem of_le (h : s₁.Scratch s₂ r) (hle : s.Continues s₁) : s.Scratch s₂ r :=
  ⟨Nat.le_trans hle.next h.new, h.made, h.unnamed⟩

end State.Scratch

/-- The machine has changed scratch registers only. -/
def Spares (s s' : State) (σ σ' : Machine.State M) : Prop := Agree (¬ s.Scratch s' ·) σ σ'

namespace Spares

variable {σ' σ₁ σ₂ : Machine.State M}

theorem refl (s s' : State) (σ : Machine.State M) : Spares s s' σ σ := Agree.refl _ σ

theorem trans (h : Spares s s₁ σ σ₁) (h' : Spares s₁ s₂ σ₁ σ₂) (hle : s.Continues s₁)
    (hle' : s₁.Continues s₂) : Spares s s₂ σ σ₂ :=
  (Agree.trans h h').mono fun _ hr =>
    ⟨fun hscratch => hr (hscratch.of_continues hle'), fun hscratch => hr (hscratch.of_le hle)⟩

theorem mono (h : Spares s s₁ σ σ₁) (hle : s₁.Continues s₂) : Spares s s₂ σ σ₁ :=
  Agree.mono h fun _ hr hscratch => hr (hscratch.of_continues hle)

theorem write (hs : Tracked c.target s) (hle : s.numbered.Continues s') (σ : Machine.State M)
    (v : Bits) : Spares s s' σ (σ.write s.next v) := by
  have hscratch : s.Scratch s.numbered s.next := by
    refine ⟨Nat.le_refl _, Nat.lt_succ_self _, fun t ht => ?_⟩
    exact absurd (hs.temps _ (mem_of_lookup_eq_some ht)) (Nat.lt_irrefl _)
  have hkept : ¬¬s.Scratch s' s.next := fun h => h (hscratch.of_continues hle)
  exact Agree.write hkept σ v

theorem eval (h : Spares s s' σ σ') (ho : o.IsValue c.target s.next) (frame : Frame) :
    o.eval frame σ' = o.eval frame σ :=
  Agree.eval h (fun r hr hscratch =>
    absurd (ho.plain.id_lt r hr) (Nat.not_lt.mpr hscratch.new)) frame

end Spares

/-! ## Values in a run -/

def readRegister (σ : Machine.State M) (r : RegId) (ty : LowType) : Option Bits :=
  ((σ.regs r).bind (·.read? ty.bits)).map fun w => ⟨ty.bits, w⟩

def State.addressBits? (s : State) (M : Interpretation) (v : Ir.Value) :
    Option (BitVec M.pointerBits) :=
  match s.frameObject? v, v with
  | some slot, _ => some (M.address (slot, 0))
  | none, .global name _ => some (M.symbol name)
  | none, _ => none

/-- What a value stands for in a run of the machine code: a constant, the address of a frame object
or a symbol, or what is in the register of the temporary or parameter. -/
def State.bits? (c : Scope) (s : State) (σ : Machine.State M) (v : Ir.Value) : Option Bits :=
  match v with
  | .constant n ty => some ⟨(c.lowType ty).bits, BitVec.ofInt _ n.toInt⟩
  | .floatConstant .. => none
  | .global .. => (s.addressBits? M v).map (⟨M.pointerBits, ·⟩)
  | .temp t ty =>
    match s.addressBits? M v with
    | some a => some ⟨M.pointerBits, a⟩
    | none => (s.temps.lookup t).bind fun r => readRegister σ r (c.lowType ty)
  | .param name _ =>
    match s.params.lookup name with
    | some (r, ty) => readRegister σ r ty
    | none => (s.addressBits? M v).map (⟨M.pointerBits, ·⟩)

/-- The frame has the objects that lowering knows. -/
def State.Framed (s : State) (g : Machine.Function) : Prop :=
  ∀ v slot, s.frameObject? v = some slot → slot ∈ g.slots

theorem State.Continues.framed (h : s.Continues s') (hg : s.Framed g) : s'.Framed g :=
  fun v slot hslot => hg v slot (h.same.frameObject? v ▸ hslot)

theorem State.Continues.addressBits? (h : s.Continues s') (M : Interpretation) (v : Ir.Value) :
    s'.addressBits? M v = s.addressBits? M v := by
  simp only [State.addressBits?, h.same.frameObject?]

theorem State.bits?_congr {σ' : Machine.State M}
    (htemps : ∀ t r, s.temps.lookup t = some r → σ'.regs r = σ.regs r)
    (hparams : ∀ name r ty, s.params.lookup name = some (r, ty) → σ'.regs r = σ.regs r)
    (v : Ir.Value) : s.bits? c σ' v = s.bits? c σ v := by
  have hread : ∀ r ty, σ'.regs r = σ.regs r → readRegister σ' r ty = readRegister σ r ty :=
    fun r ty h => by rw [readRegister, readRegister, h]
  cases v with
  | temp t ty =>
    rw [State.bits?, State.bits?]
    cases s.addressBits? M (.temp t ty) with
    | some a => rfl
    | none =>
      refine Option.bind_congr fun r hr => ?_
      exact hread r _ (htemps t r hr)
  | param name ty =>
    rw [State.bits?, State.bits?]
    cases hlookup : s.params.lookup name with
    | some e => exact hread e.1 e.2 (hparams name e.1 e.2 hlookup)
    | none => rfl
  | _ => rfl

/-- Where scratch registers change only, values do not. -/
theorem Spares.bits? {σ' : Machine.State M} (h : Spares s s₁ σ σ') (hs : Tracked c.target s)
    (hle : s.Continues s₁) (hle' : s₁.Continues s') (v : Ir.Value) :
    s'.bits? c σ' v = s'.bits? c σ v := by
  refine State.bits?_congr (fun t r hr => ?_) (fun name r ty hr => ?_) v
  · exact Agree.regs h r fun hscratch => (hscratch.of_continues hle').unnamed t hr
  · rw [hle'.same.params, hle.same.params] at hr
    exact Agree.regs h r fun hscratch =>
      absurd (hs.params _ (mem_of_lookup_eq_some hr)) (Nat.not_lt.mpr hscratch.new)

theorem eval_virtualReg (frame : Frame) (σ : Machine.State M) (r : RegId) (ty : LowType) :
    (Operand.virtualReg r ty).eval frame σ = (readRegister σ r ty).map .bits := by
  rw [readRegister, Option.map_map]
  rfl

theorem eval_parameter (frame : Frame) (σ : Machine.State M) (r : RegId) (ty : LowType) :
    (Operand.parameter r ty).eval frame σ = (readRegister σ r ty).map .bits := by
  rw [readRegister, Option.map_map]
  rfl

/-! ## Fetching a value -/

theorem computes_emitted {op : GenericOp} (hop : op.defines) (dest : Operand)
    (sources : List Operand) :
    (Instruction.generic op (dest :: sources)).Computes op none dest sources := by
  refine ⟨rfl, ?_, hop, rfl, rfl⟩
  show Flags.plain op.flags = op.flags
  cases op <;> rfl

theorem runCode_emitted {op : GenericOp} {sources : List Operand} {args : List (Arg M.pointerBits)}
    {ty : LowType} {n : Nat} {w : BitVec n} (hop : op.defines) (hty : ty.bits = n) (r : RegId)
    (hargs : sources.mapM (·.eval g.frame σ) = some args)
    (hw : produce op none n σ.memory args = some w) :
    g.runCode [.generic op (.virtualReg r ty :: sources)] σ = some (none, σ.write r ⟨n, w⟩) := by
  subst hty
  exact (computes_emitted hop _ _).runCode_eq hargs hw rfl

theorem runCode_append_eq {is js : List Instruction} {σ₁ : Machine.State M}
    (h : g.runCode is σ = some (none, σ₁)) : g.runCode (is ++ js) σ = g.runCode js σ₁ := by
  rw [g.runCode_append, h]
  rfl

theorem eval_written {ty : LowType} {n : Nat} (hty : ty.bits = n) (frame : Frame)
    (σ : Machine.State M) (r : RegId) (w : BitVec n) :
    (Operand.virtualReg r ty).eval frame (σ.write r ⟨n, w⟩) = some (.bits ⟨n, w⟩) := by
  subst hty
  exact Operand.eval_virtualReg_write r ty w

theorem exists_run_emitted {code : List Instruction} {op : GenericOp} {sources : List Operand}
    {args : List (Arg M.pointerBits)} {ty : LowType} {n : Nat} {w : BitVec n}
    {σ₁ : Machine.State M} (hs₁ : Tracked c.target s₁) (hle : s.Continues s₁)
    (hrun : g.runCode code σ = some (none, σ₁)) (hspares : Spares s s₁ σ σ₁) (hop : op.defines)
    (hty : ty.bits = n) (hargs : sources.mapM (·.eval g.frame σ₁) = some args)
    (hw : produce op none n σ₁.memory args = some w) :
    ∃ σ₂, g.runCode (code ++ [.generic op (.virtualReg s₁.next ty :: sources)]) σ =
        some (none, σ₂) ∧
      Spares s (s₁.numbered.append [.generic op (.virtualReg s₁.next ty :: sources)]) σ σ₂ ∧
      (Operand.virtualReg s₁.next ty).eval g.frame σ₂ = some (.bits ⟨n, w⟩) := by
  have hle' := State.Continues.append s₁.numbered
    [.generic op (.virtualReg s₁.next ty :: sources)]
  refine ⟨σ₁.write s₁.next ⟨n, w⟩, ?_, ?_, eval_written hty g.frame σ₁ _ w⟩
  · rw [runCode_append_eq hrun, runCode_emitted hop hty _ hargs hw]
  · exact hspares.trans (.write hs₁ hle' σ₁ _) hle (.trans (.numbered s₁) hle')

theorem room?_isSome {slot : Slot} (h : slot ∈ g.slots) (offset : Int) :
    (g.frame.room? (slot, offset)).isSome := by
  obtain ⟨o, ho, rfl⟩ := List.mem_map.mp h
  rw [Frame.room?, Option.isSome_map, Frame.objectSize?, Option.isSome_map, List.find?_isSome]
  exact ⟨o, ho, beq_self_eq_true _⟩

/-- Lowering goes on, and the code that it emits leaves what the value stands for in the operand,
from every state of the machine, and changes scratch registers only. -/
structure Evaluates (c : Scope) (s s₁ : State) (v : Ir.Value) (o : Operand)
    (code : List Instruction) : Prop where
  code_eq : s₁.code.toList = s.code.toList ++ code
  continues : s.Continues s₁
  run : ∀ {M : Interpretation} {g : Machine.Function}, M.pointerBits = c.target.pointerBits →
    s.Framed g → ∀ σ : Machine.State M, ∃ σ₁, g.runCode code σ = some (none, σ₁) ∧
      Spares s s₁ σ σ₁ ∧
      ∀ s', s₁.Continues s' → o.eval g.frame σ₁ = (s'.bits? c σ₁ v).map .bits

theorem Evaluates.of_eval (hcode : s₁.code = s.code) (hle : s.Continues s₁)
    (h : ∀ {M : Interpretation} (frame : Frame) (σ : Machine.State M) s',
      s₁.Continues s' → o.eval frame σ = (s'.bits? c σ v).map .bits) :
    Evaluates c s s₁ v o [] where
  code_eq := by rw [hcode, List.append_nil]
  continues := hle
  run _ _ σ := ⟨σ, rfl, .refl s s₁ σ, h _ σ⟩

theorem Evaluates.mono {code : List Instruction} (h : Evaluates c s s₁ v o code)
    (hle : s₁.Continues s₂) (hcode : s₂.code = s₁.code) : Evaluates c s s₂ v o code where
  code_eq := by rw [hcode, h.code_eq]
  continues := h.continues.trans hle
  run hM hg σ := by
    obtain ⟨σ₁, hrun, hspares, heval⟩ := h.run hM hg σ
    exact ⟨σ₁, hrun, hspares.mono hle, fun s' hs' => heval s' (hle.trans hs')⟩

/-- What a value stands for before the code is run is what the operand holds behind it. -/
theorem Evaluates.exists_eval {code : List Instruction} (h : Evaluates c s s₁ v o code)
    (hs : Tracked c.target s) (hM : M.pointerBits = c.target.pointerBits) (hg : s.Framed g)
    (hs' : s₁.Continues s') (σ : Machine.State M) :
    ∃ σ₁, g.runCode code σ = some (none, σ₁) ∧ Spares s s₁ σ σ₁ ∧
      o.eval g.frame σ₁ = (s'.bits? c σ v).map .bits := by
  obtain ⟨σ₁, hrun, hspares, heval⟩ := h.run hM hg σ
  refine ⟨σ₁, hrun, hspares, ?_⟩
  rw [heval s' hs', hspares.bits? hs h.continues hs']

theorem Evaluates.eval {code : List Instruction} (h : Evaluates c s s₁ v o code)
    (hs : Tracked c.target s) (hM : M.pointerBits = c.target.pointerBits) (hg : s.Framed g)
    (hs' : s₁.Continues s') {b : Bits} (hb : s'.bits? c σ v = some b) :
    ∃ σ₁, g.runCode code σ = some (none, σ₁) ∧ Spares s s₁ σ σ₁ ∧
      o.eval g.frame σ₁ = some (.bits b) := by
  obtain ⟨σ₁, hrun, hspares, heval⟩ := h.exists_eval hs hM hg hs' σ
  exact ⟨σ₁, hrun, hspares, by rw [heval, hb]; rfl⟩

theorem evaluates_addressOf (hs : Tracked c.target s) (hv : s.isAddressable v)
    (hbits : ∀ {M : Interpretation} (σ : Machine.State M) s' a, s.Continues s' →
      s.addressBits? M v = some a → s'.bits? c σ v = some ⟨M.pointerBits, a⟩)
    (h : (c.addressOf v).run s = .ok (o, s₁)) : ∃ code, Evaluates c s s₁ v o code := by
  obtain ⟨dest, s₂, hfresh, h⟩ := run_bind_eq_ok.mp h
  obtain ⟨rfl, rfl⟩ := run_freshReg_eq_ok hfresh
  obtain ⟨_, s₃, hemit, h⟩ := run_bind_eq_ok.mp h
  cases h
  -- one instruction that writes the address
  have hone : ∀ (op : GenericOp) (source : Operand), op.defines →
      s₁ = s.numbered.append [.generic op [.virtualReg s.next c.target.pointerType, source]] →
      (∀ {M : Interpretation} {g : Machine.Function}, s.Framed g → ∀ σ : Machine.State M,
        ∃ arg a, source.eval g.frame σ = some arg ∧ s.addressBits? M v = some a ∧
          produce op none M.pointerBits σ.memory [arg] = some a) →
      ∃ code, Evaluates c s s₁ v (.virtualReg s.next c.target.pointerType) code := by
    rintro op source hop rfl haddress
    have hle := (State.Continues.numbered s).trans (State.Continues.append s.numbered
      [.generic op [.virtualReg s.next c.target.pointerType, source]])
    refine ⟨_, State.code_append _ _, hle, fun {M g} hM hg σ => ?_⟩
    obtain ⟨arg, a, hsource, ha, hw⟩ := haddress hg σ
    have hwidth : c.target.pointerType.bits = M.pointerBits := hM.symm
    have hstart : g.runCode [] σ = some (none, σ) := rfl
    obtain ⟨σ₁, hrun, hspares, heval⟩ := exists_run_emitted hs (.refl s) hstart (.refl s s σ) hop
      hwidth (mapM₁_eq_some.mpr ⟨arg, hsource, rfl⟩) hw
    refine ⟨σ₁, hrun, hspares, fun s' hs' => ?_⟩
    rw [hbits σ₁ s' a (hle.trans hs') ha, heval]
    rfl
  rw [Scope.emitAddress, run_get_bind, State.frameObject?_numbered] at hemit
  cases hslot : s.frameObject? v with
  | some slot =>
    rw [hslot] at hemit
    dsimp only at hemit
    rw [run_emit] at hemit
    cases hemit
    refine hone .stackAddress _ rfl rfl fun {M _} hg σ => ?_
    obtain ⟨room, hroom⟩ := Option.isSome_iff_exists.mp (room?_isSome (hg v slot hslot) 0)
    refine ⟨.place (M.address (slot, 0)) room, M.address (slot, 0), ?_, ?_, ?_⟩
    · simp [Operand.eval, Operand.stack, hroom]
    · simp only [State.addressBits?, hslot]
    · exact congrArg some (BitVec.setWidth_eq _)
  | none =>
    cases v with
    | global name ty =>
      rw [hslot] at hemit
      dsimp only at hemit
      rw [run_emit] at hemit
      cases hemit
      exact hone .globalAddress _ rfl rfl fun _ _ =>
        ⟨.symbol name, _, rfl, rfl, congrArg some (BitVec.setWidth_eq _)⟩
    | _ => simp [State.isAddressable, hslot, Ir.Value.isGlobal] at hv

/-- **What the operand for a value stands for.** -/
theorem evaluates_operand (hs : Tracked c.target s) (h : (c.operand v).run s = .ok (o, s₁)) :
    ∃ code, Evaluates c s s₁ v o code := by
  cases v with
  | constant n ty =>
    cases h
    exact ⟨[], .of_eval rfl (.refl s) fun _ _ _ _ => rfl⟩
  | floatConstant x ty => cases h
  | global name ty =>
    refine evaluates_addressOf hs (by simp [State.isAddressable, Ir.Value.isGlobal]) ?_ h
    intro M σ s' a hs' ha
    rw [State.bits?, hs'.addressBits?, ha]
    rfl
  | temp t ty =>
    rw [Scope.operand, run_get_bind] at h
    cases hslot : s.frameObject? (.temp t ty) with
    | some slot =>
      rw [hslot] at h
      refine evaluates_addressOf hs (by simp [State.isAddressable, hslot]) ?_ h
      intro M σ s' a hs' ha
      rw [State.bits?, hs'.addressBits?, ha]
    | none =>
      rw [hslot] at h
      obtain ⟨hle, hcode, r, rfl, hr⟩ := State.Continues.tempReg h
      refine ⟨[], .of_eval hcode hle fun {M} _ σ s' hs' => ?_⟩
      have hnone : s'.addressBits? M (.temp t ty) = none := by
        rw [(hle.trans hs').addressBits?]
        simp only [State.addressBits?, hslot]
      rw [eval_virtualReg, State.bits?, hnone, hs'.temps t r hr]
      rfl
  | param name ty =>
    rw [Scope.operand, run_get_bind] at h
    cases hparam : s.params.lookup name with
    | some e =>
      rw [hparam] at h
      cases h
      refine ⟨[], .of_eval rfl (.refl s) fun _ σ s' hs' => ?_⟩
      rw [eval_parameter, State.bits?, hs'.same.params, hparam]
    | none =>
      rw [hparam] at h
      dsimp only at h
      rw [run_get_bind] at h
      cases hslot : s.frameObject? (.param name ty) with
      | some slot =>
        rw [hslot] at h
        refine evaluates_addressOf hs (by simp [State.isAddressable, hslot]) ?_ h
        intro M σ s' a hs' ha
        rw [State.bits?, hs'.same.params, hparam, hs'.addressBits?, ha]
        rfl
      | none =>
        rw [hslot] at h
        cases h

theorem isValue_operand (hs : Tracked c.target s) (h : (c.operand v).run s = .ok (o, s₁)) :
    Tracked c.target s₁ ∧ o.IsValue c.target s₁.next := by
  obtain ⟨hs₁, -, ho⟩ := (leads_operand hs v).ok o s₁ h
  exact ⟨hs₁, ho⟩

end Retarget.Lowering
