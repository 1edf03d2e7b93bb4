import Retarget.Proofs.Convention.Arguments
import Retarget.Proofs.Convention.Fills

/-!
# Reading the arguments of a call

Before a call writes its first argument register, it fetches what it needs into new virtual
registers (`Fetches`): whatever it has to read from an incoming parameter, and the addresses of
frame objects and globals.  So the moves into argument registers read no parameter, and each of them
gets a part of its argument, directly or from a register that was fetched (`Placed.Carries`).
-/

namespace Retarget.Lowering

open Machine

variable {c : Scope} {s s' s₁ s₂ : State}

/-! ## Parts of values -/

/-- The number that a scalar use of a value reads. -/
def State.datum? (s : State) : Ir.Value → Option Datum
  | .constant value _ => some (.constant value.toInt)
  | .floatConstant _ _ => none
  | .global name _ => some (.symbol name)
  | .temp id ty =>
    (s.frameObject? (.temp id ty)).map .slot <|> (s.temps.lookup id).map .register
  | .param name ty =>
    (s.params.lookup name).map (fun entry => .register entry.1) <|>
      (s.frameObject? (.param name ty)).map .slot

def State.address? (s : State) (value : Ir.Value) : Option Datum :=
  (s.frameObject? value).map .slot <|> s.datum? value

/-- What one register gets of a value: so many bits of what comes from the origin. -/
structure Part where
  width : Nat
  origin : Origin

/-- A number as a part: an address has no more bits than a pointer. -/
def Part.ofDatum (pointerBits bits : Nat) (x : Datum) : Part where
  width := if x.isAddress then min bits pointerBits else bits
  origin := .datum x

/-- The parts of an argument: one for a scalar or the address of a buffer for the result, and one
for each piece of an aggregate. -/
inductive Scope.HasParts (c : Scope) (s : State) (arg : Ir.Value) : Bool → List Part → Prop
  | buffer {x : Datum} (hx : s.address? arg = some x) :
    c.HasParts s arg true [.ofDatum c.target.pointerBits c.target.pointerBits x]
  | scalar {x : Datum} (hscalar : arg.ty.isAggregate = false)
    (hx : (if arg.ty.isPointer then s.address? arg else s.datum? arg) = some x) :
    c.HasParts s arg false [.ofDatum c.target.pointerBits (c.lowType arg.ty).bits x]
  | registers {home : List (RegId × Piece)} (haggregate : arg.ty.isAggregate)
    (hhome : s.homeRegisters? arg = some home) :
    c.HasParts s arg false (home.map fun entry => ⟨entry.2.ty.bits, .datum (.register entry.1)⟩)
  | memory {x : Datum} {bytes : Nat} (haggregate : arg.ty.isAggregate)
    (hnone : s.homeRegisters? arg = none) (hx : s.address? arg = some x)
    (hsize : arg.ty.size c.target.pointerBytes = .ok bytes) :
    c.HasParts s arg false ((pieces c.target.pointerBytes bytes).map fun p =>
      ⟨p.ty.bits, .bytes x p.offset⟩)

/-- What is read from an origin, at a width, has the bits of the part: it comes from where the part
does, or was fetched from there before. -/
inductive Part.ReadFrom (part : Part) (pointerBits : Nat) (fetched : List Fill) (bits : Nat) :
    Origin → Prop
  | direct (hwidth : part.width = bits) : part.ReadFrom pointerBits fetched bits part.origin
  | copied {fill : Fill} {id : RegId} (hfill : fill ∈ fetched) (hdest : fill.dest = .virtualReg id)
    (horigin : fill.origin = part.origin) (hwidth : part.width = bits)
    (hbits : fill.ty.bits = bits) :
    part.ReadFrom pointerBits fetched bits (.datum (.register id))
  | address {fill : Fill} {id : RegId} {x : Datum} (hfill : fill ∈ fetched)
    (hdest : fill.dest = .virtualReg id) (horigin : fill.origin = .datum x) (hx : x.isAddress)
    (hbits : fill.ty.bits = pointerBits) (hpart : part = .ofDatum pointerBits bits x) :
    part.ReadFrom pointerBits fetched bits (.datum (.register id))
  | based {fill : Fill} {id : RegId} {x : Datum} {offset : Int} (hfill : fill ∈ fetched)
    (hdest : fill.dest = .virtualReg id) (horigin : fill.origin = .datum x)
    (hbits : fill.ty.bits = pointerBits) (hpart : part = ⟨bits, .bytes x offset⟩) :
    part.ReadFrom pointerBits fetched bits (.bytes (.register id) offset)

theorem Part.ReadFrom.mono {part : Part} {pointerBits bits : Nat} {fetched fetched' : List Fill}
    {o : Origin} (h : part.ReadFrom pointerBits fetched bits o) (hsub : fetched ⊆ fetched') :
    part.ReadFrom pointerBits fetched' bits o := by
  cases h with
  | direct hwidth => exact .direct hwidth
  | copied hfill hdest horigin hwidth hbits => exact .copied (hsub hfill) hdest horigin hwidth hbits
  | address hfill hdest horigin hx hbits hpart =>
    exact .address (hsub hfill) hdest horigin hx hbits hpart
  | based hfill hdest horigin hbits hpart => exact .based (hsub hfill) hdest horigin hbits hpart

/-! ## Fetching -/

def State.numbered (s : State) : State :=
  { s with function := { s.function with nextId := s.next + 1 } }

theorem State.frameObject?_numbered (s : State) (value : Ir.Value) :
    s.numbered.frameObject? value = s.frameObject? value := by
  cases value <;> rfl

theorem run_freshReg_eq_ok {ty : LowType} {o : Operand} :
    (freshReg ty).run s = .ok (o, s') → o = .virtualReg s.next ty ∧ s' = s.numbered := by
  intro h
  obtain ⟨id, s₁, hfresh, h⟩ := run_bind_eq_ok.mp h
  obtain ⟨-, rfl, rfl⟩ := run_freshId_eq_ok.mp hfresh
  cases h
  exact ⟨rfl, rfl⟩

/-- On the way from `s` to `s'` the code fetches, each into a new virtual register, and reads no
register but those of parameters.  Values stay where they are. -/
structure Fetches (s s' : State) (fetched : List Fill) : Prop where
  code : ∃ code, s'.code.toList = s.code.toList ++ code ∧
    List.Forall₂ Instruction.Fills code fetched
  fresh : ∀ fill ∈ fetched, ∃ id, fill.dest = .virtualReg id ∧ s.next ≤ id ∧ id < s'.next
  apart : fetched.Pairwise (·.dest ≠ ·.dest)
  incoming : ∀ fill ∈ fetched, ∀ id, fill.origin.register? = some id → id ∈ s.function.paramIds
  params : s'.function.params = s.function.params
  le : s.next ≤ s'.next
  same : SameValues s s'
  temps : ∀ id reg, s.temps.lookup id = some reg → s'.temps.lookup id = some reg

namespace Fetches

variable {fetched fetched' : List Fill}

theorem refl (s : State) : Fetches s s [] :=
  ⟨⟨[], by simp⟩, by simp, .nil, by simp, rfl, Nat.le_refl _, ⟨rfl, rfl, rfl⟩, fun _ _ h => h⟩

theorem trans (h : Fetches s s₁ fetched) (h' : Fetches s₁ s₂ fetched') :
    Fetches s s₂ (fetched ++ fetched') := by
  obtain ⟨code, hcode, hfills⟩ := h.code
  obtain ⟨code', hcode', hfills'⟩ := h'.code
  have hparams : s₁.function.paramIds = s.function.paramIds := by
    rw [Function.paramIds, Function.paramIds, h.params]
  refine ⟨⟨code ++ code', by rw [hcode', hcode, List.append_assoc],
      List.rel_append hfills hfills'⟩,
    List.forall_mem_append.mpr ⟨fun fill hfill => ?_, fun fill hfill => ?_⟩,
    List.pairwise_append.mpr ⟨h.apart, h'.apart, fun fill hfill fill' hfill' => ?_⟩,
    List.forall_mem_append.mpr ⟨h.incoming, hparams ▸ h'.incoming⟩, h'.params.trans h.params,
    Nat.le_trans h.le h'.le, h.same.trans h'.same,
    fun id reg hid => h'.temps id reg (h.temps id reg hid)⟩
  · obtain ⟨id, hdest, hle, hlt⟩ := h.fresh fill hfill
    exact ⟨id, hdest, hle, Nat.lt_of_lt_of_le hlt h'.le⟩
  · obtain ⟨id, hdest, hle, hlt⟩ := h'.fresh fill hfill
    exact ⟨id, hdest, Nat.le_trans h.le hle, hlt⟩
  · obtain ⟨id, hdest, -, hlt⟩ := h.fresh fill hfill
    obtain ⟨id', hdest', hle, -⟩ := h'.fresh fill' hfill'
    rw [hdest, hdest']
    rintro heq
    cases heq
    exact absurd hle (Nat.not_le.mpr hlt)

theorem one {ty : LowType} {op : GenericOp} {source : Operand} {o : Origin}
    (hop : op.Fetches source o)
    (hincoming : ∀ id, o.register? = some id → id ∈ s.function.paramIds) :
    Fetches s (s.numbered.append [.generic op [.virtualReg s.next ty, source]])
      [⟨.virtualReg s.next, ty, o⟩] where
  code := ⟨[.generic op [.virtualReg s.next ty, source]], State.code_append _ _,
    .cons (.intro (d := .virtualReg s.next ty) rfl rfl rfl hop) .nil⟩
  fresh := by
    rw [List.forall_mem_singleton]
    exact ⟨s.next, rfl, Nat.le_refl _, Nat.lt_succ_self _⟩
  apart := List.pairwise_singleton _ _
  incoming := List.forall_mem_singleton.mpr hincoming
  params := rfl
  le := Nat.le_succ _
  same := ⟨rfl, rfl, rfl⟩
  temps _ _ h := h

theorem tempReg {id : Ir.TempId} {ty : LowType} {o : Operand}
    (h : (Lowering.tempReg id ty).run s = .ok (o, s')) :
    Fetches s s' [] ∧ ∃ reg, o = .virtualReg reg ty ∧ s'.temps.lookup id = some reg := by
  rw [Lowering.tempReg, run_get_bind] at h
  split at h
  · next reg hlookup =>
    cases h
    exact ⟨.refl s, reg, rfl, hlookup⟩
  · next hnone =>
    obtain ⟨reg, s₁, hfresh, h⟩ := run_bind_eq_ok.mp h
    obtain ⟨-, rfl, rfl⟩ := run_freshId_eq_ok.mp hfresh
    cases h
    refine ⟨⟨⟨[], by simp, .nil⟩, by simp, .nil, by simp, rfl, Nat.le_succ _, ⟨rfl, rfl, rfl⟩,
      fun id' reg' hid => ?_⟩, _, rfl, List.lookup_cons_self⟩
    have hne : id' ≠ id := fun heq => by simp [heq, hnone] at hid
    rwa [List.lookup_cons, beq_false_of_ne hne]

end Fetches

/-! ## Addresses -/

theorem address?_of_isAddressable {value : Ir.Value} (h : s.isAddressable value) :
    (∃ slot, s.frameObject? value = some slot ∧ s.address? value = some (.slot slot)) ∨
      s.frameObject? value = none ∧
        ∃ name ty, value = .global name ty ∧ s.address? value = some (.symbol name) := by
  rw [State.isAddressable, Bool.or_eq_true] at h
  cases hframe : s.frameObject? value with
  | some slot =>
    refine .inl ⟨slot, rfl, ?_⟩
    rw [State.address?, hframe]
    rfl
  | none =>
    cases value with
    | global name ty =>
      refine .inr ⟨rfl, name, ty, rfl, ?_⟩
      rw [State.address?, hframe]
      rfl
    | _ => simp [hframe, Ir.Value.isGlobal] at h

theorem frameObject?_of_not_isAddressable {value : Ir.Value} (h : ¬s.isAddressable value) :
    s.frameObject? value = none := by
  rw [State.isAddressable, Bool.or_eq_true, not_or] at h
  exact Option.not_isSome_iff_eq_none.mp h.1

theorem fetches_addressOf {value : Ir.Value} {o : Operand} (hvalue : s.isAddressable value)
    (h : (c.addressOf value).run s = .ok (o, s')) :
    ∃ id x, o = .virtualReg id c.target.pointerType ∧ s.address? value = some x ∧ x.isAddress ∧
      Fetches s s' [⟨.virtualReg id, c.target.pointerType, .datum x⟩] := by
  obtain ⟨dest, s₁, hdest, h⟩ := run_bind_eq_ok.mp h
  obtain ⟨rfl, rfl⟩ := run_freshReg_eq_ok hdest
  obtain ⟨_, s₂, haddress, h⟩ := run_bind_eq_ok.mp h
  cases h
  rw [Scope.emitAddress, run_get_bind, State.frameObject?_numbered] at haddress
  rcases address?_of_isAddressable hvalue with ⟨slot, hslot, hx⟩ | ⟨hnone, name, ty, rfl, hx⟩
  · rw [hslot, run_emit] at haddress
    cases haddress
    exact ⟨s.next, _, rfl, hx, rfl, .one (.stackAddress rfl) (fun _ h => by cases h)⟩
  · rw [hnone, run_emit] at haddress
    cases haddress
    exact ⟨s.next, _, rfl, hx, rfl, .one (.globalAddress rfl) (fun _ h => by cases h)⟩

/-! ## Operands -/

/-- What is noted of scalar parameters are incoming parameters, whose ids are in use. -/
structure State.Incoming (s : State) : Prop where
  noted : ∀ e ∈ s.params, e.2.1 ∈ s.function.paramIds
  used : ∀ id ∈ s.function.paramIds, id < s.next

theorem State.Incoming.parameters (h : s.Incoming)
    (hsteps : Relation.ReflTransGen ParameterStep s s') : s'.Incoming := by
  induction hsteps with
  | refl => exact h
  | tail _ hstep ih =>
    cases hstep with
    | declare ty isFloat isReturnBuffer =>
      refine ⟨fun e he => ?_, fun id hid => ?_⟩
      · rw [State.withParameter, Function.paramIds, List.map_append]
        exact List.mem_append_left _ (ih.noted e he)
      · rw [State.withParameter, Function.paramIds, List.map_append] at hid
        rcases List.mem_append.mp hid with hid | hid
        · exact Nat.lt_succ_of_lt (ih.used id hid)
        · rw [List.mem_singleton.mp hid]
          exact Nat.lt_succ_self _
    | note name ty hp =>
      exact ⟨List.forall_mem_cons.mpr ⟨List.mem_map_of_mem hp, ih.noted⟩, ih.used⟩
    | slot frame => exact ⟨ih.noted, fun id hid => Nat.lt_succ_of_lt (ih.used id hid)⟩
    | _ => exact ⟨ih.noted, ih.used⟩

theorem Reaches.incoming {f : Ir.Function} {todo : List Ir.Instruction} {b : Ir.Block}
    {rest : List Ir.Block} (h : Reaches c f todo b rest s) : s.Incoming := by
  refine h.keeps (I := State.Incoming) (fun s₀ hs₀ => ?_) (fun s s' hs hstep => ?_)
    fun s s' name hs hrun => ?_
  · have hstart : (State.start f).Incoming :=
      ⟨by simp [State.start], by simp [State.start, Function.paramIds]⟩
    exact hstart.parameters (parameterSteps hs₀)
  · cases hstep with
    | note hnote =>
      refine ⟨?_, ?_⟩
      · rw [State.params_note, State.function_note]
        exact hs.noted
      · rw [State.next, State.function_note]
        exact hs.used
    | number next frame hle => exact ⟨hs.noted, fun id hid => Nat.lt_of_lt_of_le (hs.used id hid) hle⟩
    | _ => exact ⟨hs.noted, hs.used⟩
  · cases hrun
    exact ⟨hs.noted, hs.used⟩

namespace Fetches

variable {fetched : List Fill}

theorem paramIds (h : Fetches s s' fetched) : s'.function.paramIds = s.function.paramIds := by
  rw [Function.paramIds, Function.paramIds, h.params]

theorem stillIncoming (h : Fetches s s' fetched) (hs : s.Incoming) : s'.Incoming := by
  refine ⟨fun e he => ?_, fun id hid => ?_⟩
  · rw [h.paramIds]
    exact hs.noted e (h.same.params ▸ he)
  · exact Nat.lt_of_lt_of_le (hs.used id (h.paramIds ▸ hid)) h.le

theorem not_mem_paramIds (h : Fetches s s' fetched) (hs : s.Incoming) {fill : Fill}
    (hfill : fill ∈ fetched) {id : RegId} (hid : fill.dest = .virtualReg id) :
    id ∉ s.function.paramIds := by
  obtain ⟨id', hdest, hle, -⟩ := h.fresh fill hfill
  cases hid.symm.trans hdest
  exact fun hmem => absurd (hs.used _ hmem) (Nat.not_lt.mpr hle)

theorem datum?_eq (h : Fetches s s' fetched) {value : Ir.Value} {x : Datum}
    (hx : s.datum? value = some x) : s'.datum? value = some x := by
  cases value with
  | temp id ty =>
    rw [State.datum?] at hx ⊢
    rw [h.same.frameObject?]
    cases hframe : s.frameObject? (.temp id ty) with
    | some slot => rwa [hframe] at hx
    | none =>
      rw [hframe] at hx
      obtain ⟨reg, hreg, rfl⟩ := Option.map_eq_some_iff.mp hx
      rw [h.temps id reg hreg]
      rfl
  | param name ty =>
    rw [State.datum?] at hx ⊢
    rwa [h.same.params, h.same.frameObject?]
  | _ => exact hx

theorem address?_eq (h : Fetches s s' fetched) {value : Ir.Value} {x : Datum}
    (hx : s.address? value = some x) : s'.address? value = some x := by
  rw [State.address?] at hx ⊢
  rw [h.same.frameObject?]
  cases hframe : s.frameObject? value with
  | some slot => rwa [hframe] at hx
  | none =>
    rw [hframe] at hx
    exact h.datum?_eq hx

end Fetches

theorem address?_of_frameObject?_eq_none {value : Ir.Value} (h : s.frameObject? value = none) :
    s.address? value = s.datum? value := by
  rw [State.address?, h]
  rfl

/-- The operand is the datum, or a register into which an address was fetched. -/
inductive Scope.Reads (c : Scope) (fetched : List Fill) (o : Operand) (x : Datum) : Prop
  | direct (ho : o.datum? = some x) (hx : x.isAddress = false)
  | fetched {id : RegId} (ho : o = .virtualReg id c.target.pointerType) (hx : x.isAddress)
    (hfill : ⟨.virtualReg id, c.target.pointerType, .datum x⟩ ∈ fetched)

/-- An operand that is a parameter is an incoming one. -/
def State.Admits (s : State) (o : Operand) : Prop :=
  ∀ id, o.kind = .parameter id → id ∈ s.function.paramIds

theorem fetches_operand (hs : s.Incoming) {value : Ir.Value} {o : Operand}
    (h : (c.operand value).run s = .ok (o, s')) :
    ∃ fetched x, Fetches s s' fetched ∧ s'.datum? value = some x ∧ c.Reads fetched o x ∧
      s.Admits o := by
  have haddress : s.isAddressable value → (c.addressOf value).run s = .ok (o, s') →
      (s.address? value = s.datum? value) → ∃ fetched x, Fetches s s' fetched ∧
        s'.datum? value = some x ∧ c.Reads fetched o x ∧ s.Admits o := by
    intro hvalue hrun hsame
    obtain ⟨id, x, rfl, hx, hisAddress, hfetches⟩ := fetches_addressOf hvalue hrun
    exact ⟨_, x, hfetches, hfetches.datum?_eq (hsame ▸ hx), .fetched rfl hisAddress (by simp),
      (fun _ h => by cases h)⟩
  cases value with
  | constant value ty =>
    cases h
    exact ⟨[], _, .refl s, rfl, .direct rfl rfl, fun _ h => by cases h⟩
  | floatConstant value ty => cases h
  | global name ty => exact haddress (by simp [State.isAddressable, Ir.Value.isGlobal]) h rfl
  | temp id ty =>
    rw [Scope.operand, run_get_bind] at h
    split at h
    · next hframe =>
      refine haddress (by simp [State.isAddressable, hframe]) h ?_
      rw [State.address?, State.datum?]
      cases s.frameObject? (.temp id ty) <;> rfl
    · next hframe =>
      obtain ⟨hfetches, reg, rfl, hlookup⟩ := Fetches.tempReg h
      have hnone : s'.frameObject? (.temp id ty) = none := by
        rw [hfetches.same.frameObject?]
        simpa using hframe
      refine ⟨[], .register reg, hfetches, ?_, .direct rfl rfl, fun _ h => by cases h⟩
      rw [State.datum?, hnone, hlookup]
      rfl
  | param name ty =>
    rw [Scope.operand, run_get_bind] at h
    split at h
    · next id ty' hlookup =>
      cases h
      refine ⟨[], .register id, .refl s, ?_, .direct rfl rfl, fun id' hid => ?_⟩
      · rw [State.datum?, hlookup]
        rfl
      · cases hid
        obtain ⟨l₁, l₂, hparams, -⟩ := List.lookup_eq_some_iff.mp hlookup
        exact hs.noted (name, id, ty') (by simp [hparams])
    · next hlookup =>
      rw [run_get_bind] at h
      split at h
      · next hframe =>
        refine haddress (by simp [State.isAddressable, hframe]) h ?_
        rw [State.address?, State.datum?, hlookup]
        cases s.frameObject? (.param name ty) <;> rfl
      · cases h

theorem fetches_location (hs : s.Incoming) {value : Ir.Value} {ty : LowType} {o : Operand}
    (h : (c.location value ty).run s = .ok (o, s')) :
    ∃ fetched x, Fetches s s' fetched ∧ s'.address? value = some x ∧
      ((∃ slot, o = .stack slot 0 ty ∧ x = .slot slot) ∨
        ∃ id, o = .memory id 0 ty ∧ (x = .register id ∨
          ⟨.virtualReg id, c.target.pointerType, .datum x⟩ ∈ fetched)) := by
  rw [Scope.location, run_get_bind] at h
  cases hframe : s.frameObject? value with
  | some slot =>
    rw [hframe] at h
    cases h
    refine ⟨[], .slot slot, .refl s, ?_, .inl ⟨slot, rfl, rfl⟩⟩
    rw [State.address?, hframe]
    rfl
  | none =>
    rw [hframe] at h
    dsimp only at h
    split at h
    · cases h
    · obtain ⟨base, s₁, hbase, h⟩ := run_bind_eq_ok.mp h
      obtain ⟨fetched, x, hfetches, hx, hreads, -⟩ := fetches_operand hs hbase
      split at h
      · next id hid =>
        cases h
        refine ⟨fetched, x, hfetches, ?_, .inr ⟨id, rfl, ?_⟩⟩
        · rw [address?_of_frameObject?_eq_none (hfetches.same.frameObject? value ▸ hframe), hx]
        · rcases hreads with ⟨ho, -⟩ | ⟨rfl, -, hfill⟩
          · left
            obtain ⟨kind, ty', regClass⟩ := base
            cases kind with
            | virtualReg r | parameter r =>
              cases hid
              exact (Option.some.inj ho).symm
            | _ => cases ho <;> cases hid
          · cases hid
            exact .inr hfill
      · cases h

/-! ## Staging -/

theorem fetches_into (ty : LowType) {source : Operand} {o : Origin}
    (ho : source.origin? = some o) :
    (if source.isMemory || source.isStack then .load else moveOp ty : GenericOp).Fetches
      source o := by
  rcases Operand.origin?_cases ho with ⟨x, hx, rfl⟩ | hbytes
  · have hplace : (source.isMemory || source.isStack) = false := Operand.isPlace_of_datum? hx
    rw [hplace, if_neg Bool.false_ne_true, moveOp]
    split
    · exact .movf hx
    · exact .mov hx
  · have hplace : (source.isMemory || source.isStack) = true := Operand.isPlace_of_bytes? hbytes
    rw [hplace, if_pos rfl]
    exact .load hbytes

/-- The part comes in at the operand: what it reads has the part, and if it is a parameter, it is an
incoming one. -/
structure State.Supplies (s : State) (pointerBits : Nat) (fetched : List Fill) (bits : Nat)
    (source : Operand) (part : Part) : Prop where
  admitted : s.Admits source
  reads : ∃ o, source.origin? = some o ∧ part.ReadFrom pointerBits fetched bits o

/-- The operand reads no incoming parameter. -/
structure State.Spares (s : State) (o : Operand) : Prop where
  not_parameter : o.isParameter = false
  not_incoming : ∀ id, o.unallocated? = some id → id ∉ s.function.paramIds

theorem spares_of_readsParameter {source : Operand} (hadmitted : s.Admits source)
    (h : s.readsParameter source = false) : s.Spares source := by
  have hnot : ∀ id, source.unallocated? = some id → id ∉ s.function.paramIds := by
    intro id hid hmem
    obtain ⟨p, hp, rfl⟩ := List.mem_map.mp hmem
    rw [State.readsParameter, hid] at h
    simp only [Option.any_some, List.any_eq_false, beq_iff_eq] at h
    exact h p hp rfl
  refine ⟨?_, hnot⟩
  obtain ⟨kind, ty, regClass⟩ := source
  cases kind with
  | parameter id => exact absurd (hadmitted id rfl) (hnot id rfl)
  | _ => rfl

/-- What reads an incoming parameter is copied to a new register, so the part comes in at an operand
that reads none. -/
theorem supplies_stage (hs : s.Incoming) {fetched : List Fill} {pointerBits : Nat}
    {source source' : Operand} {ty : LowType} {part : Part}
    (hfetched : ∀ fill ∈ fetched, ∀ id, fill.dest = .virtualReg id → id ∉ s.function.paramIds)
    (hsource : s.Supplies pointerBits fetched ty.bits source part)
    (h : (stage source ty).run s = .ok (source', s')) :
    ∃ new, Fetches s s' new ∧ s.Spares source' ∧
      s'.Supplies pointerBits (fetched ++ new) ty.bits source' part := by
  obtain ⟨o, ho, hreads⟩ := hsource.reads
  rw [stage, run_get_bind] at h
  cases hparameter : s.readsParameter source with
  | false =>
    rw [hparameter] at h
    cases h
    exact ⟨[], .refl s, spares_of_readsParameter hsource.admitted hparameter,
      by simpa using hsource⟩
  | true =>
    rw [hparameter] at h
    obtain ⟨staged, s₁, hstaged, h⟩ := run_bind_eq_ok.mp h
    obtain ⟨rfl, rfl⟩ := run_freshReg_eq_ok hstaged
    obtain ⟨_, s₂, hinto, h⟩ := run_bind_eq_ok.mp h
    rw [run_emitInto] at hinto
    cases hinto
    cases h
    have hincoming : ∀ id, o.register? = some id → id ∈ s.function.paramIds := by
      intro id hid
      rw [Operand.register?_of_origin? ho] at hid
      rw [State.readsParameter, hid] at hparameter
      obtain ⟨p, hp, hpid⟩ := List.any_eq_true.mp hparameter
      exact List.mem_map.mpr ⟨p, hp, by simpa using hpid⟩
    have hnew : Fetches s (s.numbered.append [intoInstruction (.virtualReg s.next ty) source])
        [⟨.virtualReg s.next, ty, o⟩] := .one (fetches_into ty ho) hincoming
    refine ⟨_, hnew, ⟨rfl, fun id hid => ?_⟩, nofun, _, rfl, ?_⟩
    · cases hid
      exact hnew.not_mem_paramIds hs (List.mem_singleton_self _) rfl
    · -- what is in a fetched register needs no copy, so the part is read in place
      cases hreads with
      | direct hwidth =>
        exact .copied (List.mem_append_right _ (List.mem_singleton_self _)) rfl rfl hwidth rfl
      | copied hfill hdest | address hfill hdest | based hfill hdest =>
        exact absurd (hincoming _ rfl) (hfetched _ hfill _ hdest)

theorem Scope.Reads.supplies {fetched : List Fill} {o : Operand} {x : Datum}
    (h : c.Reads fetched o x) (hadmitted : s.Admits o) (bits : Nat) :
    s.Supplies c.target.pointerBits fetched bits o (.ofDatum c.target.pointerBits bits x) := by
  refine ⟨hadmitted, ?_⟩
  rcases h with ⟨ho, hx⟩ | ⟨rfl, hx, hfill⟩
  · refine ⟨.datum x, ?_, .direct ?_⟩
    · rw [Operand.origin?, ho]
      rfl
    · rw [Part.ofDatum, hx]
      rfl
  · exact ⟨_, rfl, .address hfill rfl rfl hx rfl rfl⟩

/-! ## Moves into argument registers -/

/-- The move of the placed argument reads the part, and no incoming parameter. -/
structure Placed.Carries (c : Scope) (s : State) (fetched : List Fill) (p : Placed)
    (part : Part) : Prop where
  reads : ∃ o, (c.moveOf s p).Fills ⟨p.dest.kind, p.dest.ty, o⟩ ∧
    part.ReadFrom c.target.pointerBits fetched p.dest.ty.bits o
  spares : ∀ o ∈ (c.moveOf s p).operands, s.Spares o

namespace Fetches

variable {fetched : List Fill}

theorem spares (h : Fetches s s' fetched) {o : Operand} (ho : s.Spares o) : s'.Spares o :=
  ⟨ho.not_parameter, fun id hid => h.paramIds ▸ ho.not_incoming id hid⟩

theorem supplies (h : Fetches s s' fetched) {pointerBits bits : Nat} {known fetched' : List Fill}
    {source : Operand} {part : Part} (hsub : known ⊆ fetched')
    (hs : s.Supplies pointerBits known bits source part) :
    s'.Supplies pointerBits fetched' bits source part := by
  obtain ⟨o, ho, hreads⟩ := hs.reads
  exact ⟨fun id hid => h.paramIds ▸ hs.admitted id hid, o, ho, hreads.mono hsub⟩

theorem carries (h : Fetches s s' fetched) {known fetched' : List Fill} {p : Placed}
    {part : Part} (hsub : known ⊆ fetched') (hp : p.Carries c s known part) :
    p.Carries c s' fetched' part := by
  have hmove : c.moveOf s' p = c.moveOf s p := by
    rw [Scope.moveOf, Scope.moveOf]
    split
    · rfl
    · rw [h.same.frameObject?]
  obtain ⟨o, hfills, hreads⟩ := hp.reads
  rw [← hmove] at hfills
  exact ⟨⟨o, hfills, hreads.mono hsub⟩, fun o ho => h.spares (hp.spares o (hmove ▸ ho))⟩

end Fetches

theorem spares_physical (s : State) (root : RegId) (ty : LowType) : s.Spares (c.physical root ty) :=
  ⟨rfl, nofun⟩

theorem carries_copy {fetched : List Fill} {root : RegId} {ty : LowType} {source : Operand}
    {part : Part} (hspares : s.Spares source)
    (hsource : s.Supplies c.target.pointerBits fetched ty.bits source part) :
    (⟨c.physical root ty, .copy source⟩ : Placed).Carries c s fetched part := by
  obtain ⟨o, ho, hreads⟩ := hsource.reads
  refine ⟨⟨o, ?_, hreads⟩, ?_⟩
  · exact .intro (d := c.physical root ty) rfl rfl rfl (fetches_into ty ho)
  · exact List.forall_mem_cons.mpr
      ⟨spares_physical s root ty, List.forall_mem_singleton.mpr hspares⟩

theorem carries_address (fetched : List Fill) (root : RegId) {value : Ir.Value}
    (hvalue : s.isAddressable value) :
    ∃ x, s.address? value = some x ∧
      (⟨c.physical root c.target.pointerType, .address value⟩ : Placed).Carries c s fetched
        (.ofDatum c.target.pointerBits c.target.pointerBits x) := by
  have hwidth : ∀ x : Datum, x.isAddress →
      (Part.ofDatum c.target.pointerBits c.target.pointerBits x).width = c.target.pointerBits := by
    intro x hx
    rw [Part.ofDatum, if_pos hx, Nat.min_self]
  rcases address?_of_isAddressable hvalue with ⟨slot, hslot, hx⟩ | ⟨hnone, name, ty, rfl, hx⟩
  · refine ⟨_, hx, ⟨_, ?_, .direct (hwidth _ rfl)⟩, ?_⟩
    · rw [Scope.moveOf]
      dsimp only
      rw [hslot]
      exact .intro (d := c.physical root c.target.pointerType) rfl rfl rfl (.stackAddress rfl)
    · rw [Scope.moveOf]
      dsimp only
      rw [hslot]
      exact List.forall_mem_cons.mpr
        ⟨spares_physical s root _, List.forall_mem_singleton.mpr ⟨rfl, fun _ h => by cases h⟩⟩
  · refine ⟨_, hx, ⟨_, ?_, .direct (hwidth _ rfl)⟩, ?_⟩
    · rw [Scope.moveOf]
      dsimp only
      rw [hnone]
      exact .intro (d := c.physical root c.target.pointerType) rfl rfl rfl (.globalAddress rfl)
    · rw [Scope.moveOf]
      dsimp only
      rw [hnone]
      exact List.forall_mem_cons.mpr
        ⟨spares_physical s root _, List.forall_mem_singleton.mpr ⟨rfl, fun _ h => by cases h⟩⟩

theorem carries_operand (hs : s.Incoming) {value : Ir.Value} {root : RegId} {ty : LowType}
    {source source' : Operand} (hoperand : (c.operand value).run s = .ok (source, s₁))
    (hstage : (stage source ty).run s₁ = .ok (source', s')) :
    ∃ fetched x, Fetches s s' fetched ∧ s'.datum? value = some x ∧
      (⟨c.physical root ty, .copy source'⟩ : Placed).Carries c s' fetched
        (.ofDatum c.target.pointerBits ty.bits x) := by
  obtain ⟨fetched, x, hfetches, hx, hreads, hadmitted⟩ := fetches_operand hs hoperand
  have hadmitted₁ : s₁.Admits source := fun id hid => hfetches.paramIds ▸ hadmitted id hid
  obtain ⟨new, hnew, hspares, hsupplies⟩ := supplies_stage (hfetches.stillIncoming hs)
    (fun fill hfill id hid => hfetches.paramIds ▸ hfetches.not_mem_paramIds hs hfill hid)
    (hreads.supplies hadmitted₁ ty.bits) hstage
  exact ⟨_, x, hfetches.trans hnew, hnew.datum?_eq hx, carries_copy (hnew.spares hspares) hsupplies⟩

theorem carries_placeReturnBuffer (hs : s.Incoming) {arg : Ir.Value} {placed : Placed}
    (h : (c.placeReturnBuffer arg).run s = .ok (placed, s')) :
    ∃ fetched part, Fetches s s' fetched ∧ c.HasParts s' arg true [part] ∧
      placed.Carries c s' fetched part := by
  rw [Scope.placeReturnBuffer, run_get_bind] at h
  split at h
  · next haddress =>
    cases h
    obtain ⟨x, hx, hcarries⟩ :=
      carries_address (c := c) [] c.target.registers.returnBuffer haddress
    exact ⟨[], _, .refl s, .buffer hx, hcarries⟩
  · next haddress =>
    obtain ⟨source, s₁, hoperand, h⟩ := run_bind_eq_ok.mp h
    obtain ⟨staged, s₂, hstage, h⟩ := run_bind_eq_ok.mp h
    cases h
    obtain ⟨fetched, x, hfetches, hx, hcarries⟩ := carries_operand hs hoperand hstage
    have hnone : s'.frameObject? arg = none := by
      rw [hfetches.same.frameObject?]
      exact frameObject?_of_not_isAddressable haddress
    have haddress' := (address?_of_frameObject?_eq_none hnone).trans hx
    exact ⟨fetched, _, hfetches, .buffer haddress', hcarries⟩

theorem carries_placeScalar (hs : s.Incoming) {callee : String} {arg : Ir.Value} {cursor : Cursor}
    {r : Placed × Cursor} (hscalar : arg.ty.isAggregate = false)
    (h : (c.placeScalar callee arg cursor).run s = .ok (r, s')) :
    ∃ fetched part, Fetches s s' fetched ∧ c.HasParts s' arg false [part] ∧
      r.1.Carries c s' fetched part := by
  dsimp only [Scope.placeScalar] at h
  obtain ⟨root, s₁, hcheck, hrun⟩ := run_bind_eq_ok.mp h
  obtain ⟨-, rfl⟩ := run_check_eq_ok.mp hcheck
  rw [run_get_bind] at hrun
  split at hrun
  · next haddress =>
    cases hrun
    rw [Bool.and_eq_true] at haddress
    obtain ⟨x, hx, hcarries⟩ := carries_address (c := c) [] root haddress.2
    have hty : c.lowType arg.ty = c.target.pointerType := lowType_of_isPointer haddress.1
    have hparts : c.HasParts _ arg false [_] := .scalar hscalar ((if_pos haddress.1).trans hx)
    rw [hty] at hparts ⊢
    exact ⟨[], _, .refl _, hparts, hcarries⟩
  · next haddress =>
    obtain ⟨source, s₂, hoperand, hrun⟩ := run_bind_eq_ok.mp hrun
    obtain ⟨staged, s₃, hstage, hrun⟩ := run_bind_eq_ok.mp hrun
    cases hrun
    obtain ⟨fetched, x, hfetches, hx, hcarries⟩ := carries_operand hs hoperand hstage
    refine ⟨fetched, _, hfetches, .scalar hscalar ?_, hcarries⟩
    split
    · next hpointer =>
      have hnone : s'.frameObject? arg = none := by
        rw [hfetches.same.frameObject?]
        rw [hpointer, Bool.true_and] at haddress
        exact frameObject?_of_not_isAddressable haddress
      exact (address?_of_frameObject?_eq_none hnone).trans hx
    · exact hx

/-- A piece of an aggregate with its register, and the part that it supplies. -/
def Scope.PieceSupplies (c : Scope) (s : State) (fetched : List Fill)
    (piece : Operand × Operand) (part : Part) : Prop :=
  (∃ root ty, piece.1 = c.physical root ty) ∧
    s.Supplies c.target.pointerBits fetched piece.1.ty.bits piece.2 part

theorem carries_mapM_stagePart {fetched : List Fill} {ps : List (Operand × Operand)}
    {parts : List Part} {placed : List Placed} (hs : s.Incoming)
    (hfetched : ∀ fill ∈ fetched, ∀ id, fill.dest = .virtualReg id → id ∉ s.function.paramIds)
    (hparts : List.Forall₂ (c.PieceSupplies s fetched) ps parts)
    (h : (ps.mapM stagePart).run s = .ok (placed, s')) :
    ∃ new, Fetches s s' new ∧
      List.Forall₂ (fun p part => p.Carries c s' (fetched ++ new) part) placed parts := by
  induction ps generalizing s fetched parts placed with
  | nil =>
    cases hparts
    cases h
    exact ⟨[], .refl _, .nil⟩
  | cons piece ps ih =>
    obtain ⟨part, others, hpiece, hothers, rfl⟩ := List.forall₂_cons_left_iff.mp hparts
    rw [List.mapM_cons] at h
    obtain ⟨first, s₁, hfirst, h⟩ := run_bind_eq_ok.mp h
    obtain ⟨rest, s₂, hrest, h⟩ := run_bind_eq_ok.mp h
    cases h
    obtain ⟨source', s₃, hstage, hfirst⟩ := run_bind_eq_ok.mp hfirst
    cases hfirst
    obtain ⟨⟨root, ty, hdest⟩, hsupplies⟩ := hpiece
    obtain ⟨dest, source⟩ := piece
    cases hdest
    obtain ⟨new, hnew, hspares, hsupplies'⟩ := supplies_stage hs hfetched hsupplies hstage
    have hfirst : (⟨c.physical root ty, .copy source'⟩ : Placed).Carries c s₁ (fetched ++ new)
        part :=
      carries_copy (hnew.spares hspares) hsupplies'
    have hfetched' : ∀ fill ∈ fetched ++ new, ∀ id, fill.dest = .virtualReg id →
        id ∉ s₁.function.paramIds := by
      rw [hnew.paramIds]
      exact List.forall_mem_append.mpr
        ⟨hfetched, fun fill hfill id => hnew.not_mem_paramIds hs hfill⟩
    have hstill : List.Forall₂ (c.PieceSupplies s₁ (fetched ++ new)) ps others :=
      hothers.imp fun piece part hpiece =>
        ⟨hpiece.1, hnew.supplies (List.subset_append_left _ _) hpiece.2⟩
    obtain ⟨new', hnew', hcarries⟩ := ih (hnew.stillIncoming hs) hfetched' hstill hrest
    rw [List.append_assoc] at hcarries
    refine ⟨new ++ new', hnew.trans hnew', .cons (hnew'.carries ?_ hfirst) hcarries⟩
    rw [← List.append_assoc]
    exact List.subset_append_left _ _

theorem forall₂_map_zip_take {α β γ δ : Type} {R : γ → δ → Prop} {f : α × β → γ} {g : α → δ}
    (h : ∀ a b, R (f (a, b)) (g a)) (as : List α) (bs : List β) :
    List.Forall₂ R ((as.zip bs).map f) ((as.map g).take bs.length) := by
  induction as generalizing bs with
  | nil => simp
  | cons a as ih =>
    cases bs with
    | nil => simp
    | cons b bs => exact .cons (h a b) (ih bs)

/-- The pieces of an aggregate supply its parts, or the first of them if there are too few
registers for its pieces. -/
theorem supplies_aggregateParts (hs : s.Incoming) {arg : Ir.Value} {registers : List RegId}
    {ps : List (Operand × Operand)} (haggregate : arg.ty.isAggregate)
    (h : (c.aggregateParts arg registers).run s = .ok (ps, s')) :
    ∃ fetched whole parts, Fetches s s' fetched ∧ c.HasParts s' arg false whole ∧ parts <+: whole ∧
      (s.CanPass c arg → parts = whole) ∧ List.Forall₂ (c.PieceSupplies s' fetched) ps parts := by
  obtain ⟨bytes, hsize, hle, hcase⟩ := run_aggregateParts_eq_ok.mp h
  rcases hcase with ⟨home, hhome, rfl, rfl⟩ | ⟨hnone, location, hlocation, rfl⟩
  · refine ⟨[], _, _, .refl _, .registers haggregate hhome, List.take_prefix registers.length _,
      fun hpass => ?_, ?_⟩
    · obtain ⟨bytes', hsize', hpieces⟩ := hpass.typed home hhome
      cases hsize.symm.trans hsize'
      refine List.take_of_length_le ?_
      rw [List.length_map]
      rwa [← hpieces, List.length_map] at hle
    · exact forall₂_map_zip_take (fun entry root =>
      ⟨⟨_, _, rfl⟩, (fun _ h => by cases h), _, rfl, .direct rfl⟩) home registers
  · obtain ⟨fetched, x, hfetches, hx, hplace⟩ := fetches_location hs hlocation
    refine ⟨fetched, _, _, hfetches,
      .memory haggregate (hfetches.same.homeRegisters? arg ▸ hnone) hx hsize, List.prefix_rfl,
      fun _ => rfl, ?_⟩
    have htake : List.Forall₂ (c.PieceSupplies s' fetched)
        (((pieces c.target.pointerBytes bytes).zip registers).map fun entry =>
          (c.physical entry.2 entry.1.ty, entry.1.of location))
        (((pieces c.target.pointerBytes bytes).map fun p =>
          (⟨p.ty.bits, .bytes x p.offset⟩ : Part)).take registers.length) := by
      refine forall₂_map_zip_take (fun p root => ⟨⟨_, _, rfl⟩, ?_⟩) _ registers
      have hoffset : (0 : Int) + p.offset = p.offset := Int.zero_add _
      rcases hplace with ⟨slot, rfl, rfl⟩ | ⟨id, rfl, rfl | hfill⟩
      · refine ⟨(fun _ h => by cases h), .bytes (.slot slot) p.offset, ?_, .direct rfl⟩
        exact congrArg (fun offset => some (Origin.bytes (.slot slot) offset)) hoffset
      · refine ⟨(fun _ h => by cases h), .bytes (.register id) p.offset, ?_, .direct rfl⟩
        exact congrArg (fun offset => some (Origin.bytes (.register id) offset)) hoffset
      · refine ⟨(fun _ h => by cases h), .bytes (.register id) p.offset, ?_,
          .based hfill rfl rfl rfl rfl⟩
        exact congrArg (fun offset => some (Origin.bytes (.register id) offset)) hoffset
    rwa [List.take_of_length_le (by simpa using hle)] at htake

/-- The moves of an argument carry its parts; of an aggregate in other registers than those for the
pieces of its type, the first of them. -/
def Scope.Delivers (c : Scope) (s : State) (fetched : List Fill) (isBuffer : Bool)
    (arg : Ir.Value) (group : List Placed) : Prop :=
  ∃ whole parts, c.HasParts s arg isBuffer whole ∧ parts <+: whole ∧
    (s.CanPass c arg → parts = whole) ∧ List.Forall₂ (Placed.Carries c s fetched) group parts

theorem delivers_one {fetched : List Fill} {isBuffer : Bool} {arg : Ir.Value} {placed : Placed}
    {part : Part} (hparts : c.HasParts s arg isBuffer [part])
    (hcarries : placed.Carries c s fetched part) : c.Delivers s fetched isBuffer arg [placed] :=
  ⟨[part], [part], hparts, List.prefix_rfl, fun _ => rfl, .cons hcarries .nil⟩

namespace Fetches

variable {fetched : List Fill}

theorem hasParts (h : Fetches s s' fetched) {arg : Ir.Value} {isBuffer : Bool} {parts : List Part}
    (hparts : c.HasParts s arg isBuffer parts) : c.HasParts s' arg isBuffer parts := by
  cases hparts with
  | buffer hx => exact .buffer (h.address?_eq hx)
  | scalar hscalar hx =>
    refine .scalar hscalar ?_
    split at hx
    · next hpointer => exact (if_pos hpointer).trans (h.address?_eq hx)
    · next hpointer => exact (if_neg hpointer).trans (h.datum?_eq hx)
  | registers haggregate hhome => exact .registers haggregate (h.same.homeRegisters? arg ▸ hhome)
  | memory haggregate hnone hx hsize =>
    exact .memory haggregate (h.same.homeRegisters? arg ▸ hnone) (h.address?_eq hx) hsize

theorem canPass_iff (h : Fetches s s' fetched) {arg : Ir.Value} :
    s'.CanPass c arg ↔ s.CanPass c arg :=
  ⟨fun hpass => hpass.of_sameValues
      ⟨h.same.params.symm, h.same.objects.symm, h.same.aggregates.symm⟩,
    fun hpass => hpass.of_sameValues h.same⟩

theorem delivers (h : Fetches s s' fetched) {known fetched' : List Fill} {isBuffer : Bool}
    {arg : Ir.Value} {group : List Placed} (hsub : known ⊆ fetched')
    (hgroup : c.Delivers s known isBuffer arg group) :
    c.Delivers s' fetched' isBuffer arg group := by
  obtain ⟨whole, parts, hparts, hprefix, hwhole, hcarries⟩ := hgroup
  exact ⟨whole, parts, h.hasParts hparts, hprefix, fun hpass => hwhole (h.canPass_iff.mp hpass),
    hcarries.imp fun p part hp => h.carries hsub hp⟩

end Fetches

/-- An aggregate argument has its pieces for parts. -/
theorem delivers_placeAggregate (hs : s.Incoming) {callee : String} {index : Nat} {arg : Ir.Value}
    {cursor : Cursor} {r : List Placed × Cursor} (haggregate : arg.ty.isAggregate)
    (h : (c.placeAggregate callee index arg cursor).run s = .ok (r, s')) :
    ∃ fetched, Fetches s s' fetched ∧ c.Delivers s' fetched false arg r.1 := by
  obtain ⟨_, ps, s₁, -, -, hps, hplaced, -⟩ := exists_of_run_placeAggregate h
  obtain ⟨fetched, whole, parts, hfetches, hparts, hprefix, hwhole, hsupplies⟩ :=
    supplies_aggregateParts hs haggregate hps
  obtain ⟨new, hnew, hcarries⟩ := carries_mapM_stagePart (hfetches.stillIncoming hs)
    (fun fill hfill id hid => hfetches.paramIds ▸ hfetches.not_mem_paramIds hs hfill hid)
    hsupplies hplaced
  have hall := hfetches.trans hnew
  exact ⟨_, hall, whole, parts, hnew.hasParts hparts, hprefix,
    fun hpass => hwhole (hall.canPass_iff.mp hpass), hcarries⟩

theorem delivers_placeOne (hs : s.Incoming) {callee : String} {returnBuffer : Option Nat}
    {arg : Ir.Value} {index : Nat} {cursor : Cursor} {r : List Placed × Cursor}
    (h : (c.placeOne callee returnBuffer arg index cursor).run s = .ok (r, s')) :
    ∃ fetched, Fetches s s' fetched ∧
      c.Delivers s' fetched (returnBuffer == some index) arg r.1 := by
  rw [Scope.placeOne] at h
  cases hbuffer : returnBuffer == some index with
  | true =>
    rw [hbuffer] at h
    obtain ⟨placed, s₁, hplaced, h⟩ := run_bind_eq_ok.mp h
    cases h
    obtain ⟨fetched, part, hfetches, hparts, hcarries⟩ := carries_placeReturnBuffer hs hplaced
    exact ⟨fetched, hfetches, delivers_one hparts hcarries⟩
  | false =>
    rw [hbuffer, if_neg Bool.false_ne_true] at h
    cases haggregate : arg.ty.isAggregate with
    | true =>
      rw [haggregate, if_pos rfl] at h
      exact delivers_placeAggregate hs haggregate h
    | false =>
      rw [haggregate, if_neg Bool.false_ne_true] at h
      obtain ⟨r', s₁, hplaced, h⟩ := run_bind_eq_ok.mp h
      cases h
      obtain ⟨fetched, part, hfetches, hparts, hcarries⟩ :=
        carries_placeScalar hs haggregate hplaced
      exact ⟨fetched, hfetches, delivers_one hparts hcarries⟩

/-- **Arguments are fetched before the first of them is moved**: placing them emits code that
fetches into new registers, and for each argument a group of moves into argument registers that
carry its parts. -/
theorem delivers_placeArguments (hs : s.Incoming) {callee : String} {returnBuffer : Option Nat}
    {args : List (Ir.Value × Nat)} {cursor : Cursor} {placed : List Placed}
    (h : (c.placeArguments callee returnBuffer args cursor).run s = .ok (placed, s')) :
    ∃ fetched groups, Fetches s s' fetched ∧ placed = groups.flatten ∧
      List.Forall₂ (fun arg group => c.Delivers s' fetched (returnBuffer == some arg.2) arg.1 group)
        args groups := by
  induction args generalizing s cursor placed with
  | nil =>
    cases h
    exact ⟨[], [], .refl _, rfl, .nil⟩
  | cons entry args ih =>
    obtain ⟨arg, index⟩ := entry
    obtain ⟨r, others, s₁, hone, hothers, rfl⟩ := exists_of_placeArguments_cons h
    obtain ⟨fetched, hfetches, hgroup⟩ := delivers_placeOne hs hone
    obtain ⟨fetched', groups, hfetches', rfl, hgroups⟩ := ih (hfetches.stillIncoming hs) hothers
    refine ⟨fetched ++ fetched', r.1 :: groups, hfetches.trans hfetches', rfl, .cons ?_ ?_⟩
    · exact hfetches'.delivers (List.subset_append_left _ _) hgroup
    · exact hgroups.imp fun entry group hgroup =>
        (Fetches.refl s').delivers (List.subset_append_right _ _) hgroup

end Retarget.Lowering
