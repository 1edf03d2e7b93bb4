import Retarget.Proofs.Lowering.Operands
import Retarget.Proofs.Lowering.Temporaries

/-!
# Floating-point ids

If each temporary of a function is a floating-point value wherever it is stated or nowhere
(`Ir.Function.KeepsKinds`), every id of the lowered function is (`kinded_lowerFunction`).  The kinds
of the ids are a list with one entry for each id in use, so a step of lowering, which takes new ids,
makes the list longer.
-/

namespace Retarget

/-! ## Kinds of values -/

namespace Ir

variable (floats : TempId → Bool)

/-- A temporary is stated with a type of the kind that it has. -/
def Value.StatesKind : Value → Prop
  | .temp id ty => ty.isFloat = floats id
  | _ => True

/-- The result has the kind of its type. -/
def Instruction.GivesKind : Instruction → Prop
  | .binary result _ _ _ ty | .unary result _ _ ty | .load result _ ty
  | .call (some result) _ _ ty _ => floats result = ty.isFloat
  | .compare result _ _ _ | .elementPtr result _ _ _ => floats result = false
  | _ => True

/-- The temporaries in `floats` are floating-point values wherever they are stated, and the others
nowhere. -/
structure Function.KeepsKinds (f : Function) : Prop where
  states : ∀ i ∈ f.instructions, ∀ use ∈ i.uses, use.value.StatesKind floats
  gives : ∀ i ∈ f.instructions, i.GivesKind floats

end Ir

namespace Machine

/-- The id of a virtual register or of a parameter. -/
def Operand.value? (o : Operand) : Option RegId :=
  match o.kind with
  | .virtualReg id | .parameter id => some id
  | _ => none

/-- The type of the operand says of its id what `kinds` says; no class is chosen yet. -/
structure Operand.Kinded (kinds : List Bool) (o : Operand) : Prop where
  value : ∀ id, o.value? = some id → kinds[id]? = some o.ty.isFloat
  unclassed : o.regClass = none

/-- A place in memory; no class is chosen yet. -/
structure Operand.IsBarePlace (o : Operand) : Prop where
  isPlace : o.isPlace
  unclassed : o.regClass = none

/-- Types and kinds agree all over the instruction, and a store is not marked as a load. -/
structure Instruction.Kinded (kinds : List Bool) (i : Instruction) : Prop where
  operands : ∀ o ∈ i.operands, o.Kinded kinds
  unloaded : i.generic? = some .store → i.isLoad = false

section Kinds

variable {kinds kinds' : List Bool} {o : Operand}

theorem getElem?_mono (h : kinds <+: kinds') {id : RegId} {isFloat : Bool}
    (hid : kinds[id]? = some isFloat) : kinds'[id]? = some isFloat := by
  obtain ⟨rest, rfl⟩ := h
  rwa [List.getElem?_append_left (List.getElem?_eq_some_iff.mp hid).1]

theorem Operand.Kinded.mono (h : o.Kinded kinds) (hle : kinds <+: kinds') : o.Kinded kinds' :=
  ⟨fun id hid => getElem?_mono hle (h.value id hid), h.unclassed⟩

theorem Instruction.Kinded.mono {i : Instruction} (h : i.Kinded kinds) (hle : kinds <+: kinds') :
    i.Kinded kinds' :=
  ⟨fun o ho => (h.operands o ho).mono hle, h.unloaded⟩

theorem Operand.kinded_of_value? (h : o.value? = none) (hclass : o.regClass = none) :
    o.Kinded kinds :=
  ⟨fun _ hid => (nomatch h.symm.trans hid), hclass⟩

theorem Operand.kinded_virtualReg {id : RegId} {ty : LowType} (h : kinds[id]? = some ty.isFloat) :
    (virtualReg id ty).Kinded kinds :=
  ⟨fun _ hid => by cases hid; exact h, rfl⟩

theorem Operand.kinded_parameter {id : RegId} {ty : LowType} (h : kinds[id]? = some ty.isFloat) :
    (parameter id ty).Kinded kinds :=
  ⟨fun _ hid => by cases hid; exact h, rfl⟩

theorem Operand.IsBarePlace.kinded (h : o.IsBarePlace) : o.Kinded kinds := by
  obtain ⟨kind, ty, regClass⟩ := o
  obtain ⟨hplace, hclass⟩ := h
  refine kinded_of_value? ?_ hclass
  cases kind <;> first | rfl | cases hplace

end Kinds

end Machine

namespace Lowering

open Machine

variable {floats : Ir.TempId → Bool} {kinds kinds' : List Bool} {c : Scope}
  {s : State} {α β : Type}

/-- All code so far and all that is remembered agrees with `kinds`, which knows the ids in use. -/
structure State.Kinded (floats : Ir.TempId → Bool) (kinds : List Bool) (s : State) : Prop where
  length : kinds.length = s.next
  code : ∀ i ∈ s.code.toList, i.Kinded kinds
  blocks : s.function.All (·.Kinded kinds)
  incoming : ∀ p ∈ s.function.params, kinds[p.id]? = some p.isFloat ∧
    (p.isReturnBuffer → p.isFloat = false)
  temps : ∀ e ∈ s.temps, kinds[e.2]? = some (floats e.1)
  params : ∀ name id ty, (name, id, ty) ∈ s.params → kinds[id]? = some ty.isFloat
  homes : ∀ name parts, (name, .registers parts) ∈ s.aggregates →
    ∀ part ∈ parts, kinds[part.1]? = some part.2.ty.isFloat

/-- Where the step leads from `s`, kinds are known of all ids in use, the same as before of those
that were in use, and `P` holds of the answer. -/
structure Kinds (floats : Ir.TempId → Bool) (kinds : List Bool) (s : State)
    (x : Lower α) (P : List Bool → α → Prop) : Prop where
  ok : ∀ a s', x.run s = .ok (a, s') →
    ∃ kinds', kinds <+: kinds' ∧ s'.Kinded floats kinds' ∧ P kinds' a

variable {P : List Bool → α → Prop} {Q : List Bool → β → Prop}

/-! ## Steps -/

namespace Kinds

theorem pure {a : α} (hs : s.Kinded floats kinds) (h : P kinds a) :
    Kinds floats kinds s (Pure.pure a) P := by
  refine ⟨fun a' s' h' => ?_⟩
  cases h'
  exact ⟨kinds, List.prefix_refl _, hs, h⟩

theorem bind {x : Lower α} {g : α → Lower β} (hx : Kinds floats kinds s x P)
    (hg : ∀ a kinds' s', s'.Kinded floats kinds' → kinds <+: kinds' → P kinds' a →
      Kinds floats kinds' s' (g a) Q) : Kinds floats kinds s (x >>= g) Q := by
  refine ⟨fun b s₂ h => ?_⟩
  rw [StateT.run_bind] at h
  obtain ⟨⟨a, s₁⟩, hrun, h⟩ := bind_eq_ok.mp h
  obtain ⟨kinds₁, hle₁, hs₁, ha⟩ := hx.ok a s₁ hrun
  obtain ⟨kinds₂, hle₂, hs₂, hb⟩ := (hg a kinds₁ s₁ hs₁ hle₁ ha).ok b s₂ h
  exact ⟨kinds₂, hle₁.trans hle₂, hs₂, hb⟩

theorem get_bind {g : State → Lower β} (h : Kinds floats kinds s (g s) Q) :
    Kinds floats kinds s (get >>= g) Q :=
  ⟨h.ok⟩

theorem check {x : Result α} {P : α → Prop} (hs : s.Kinded floats kinds)
    (h : ∀ a, x = .ok a → P a) : Kinds floats kinds s (check x) fun _ a => P a := by
  refine ⟨fun a s' hrun => ?_⟩
  cases x with
  | error e => cases hrun
  | ok a =>
    cases hrun
    exact ⟨kinds, List.prefix_refl _, hs, h _ rfl⟩

theorem unsupported (detail : String) : Kinds floats kinds s (unsupported detail) P := ⟨nofun⟩

theorem unsupported_bind {g : α → Lower β} (detail : String) :
    Kinds floats kinds s (Lowering.unsupported detail >>= g) Q :=
  ⟨nofun⟩

theorem modify {g : State → State} (hs : (g s).Kinded floats kinds) :
    Kinds floats kinds s (modify g) fun _ _ => True := by
  refine ⟨fun a s' h => ?_⟩
  cases h
  exact ⟨kinds, List.prefix_refl _, hs, trivial⟩

theorem forM {l : List α} {g : α → Lower Unit} {R : List Bool → α → Prop}
    (hs : s.Kinded floats kinds) (hR : ∀ a ∈ l, R kinds a)
    (hmono : ∀ ks ks' a, ks <+: ks' → R ks a → R ks' a)
    (hg : ∀ a ∈ l, ∀ kinds' s', s'.Kinded floats kinds' → R kinds' a →
      Kinds floats kinds' s' (g a) fun _ _ => True) :
    Kinds floats kinds s (l.forM g) fun _ _ => True := by
  induction l generalizing s kinds with
  | nil => exact pure hs trivial
  | cons a l ih =>
    rw [List.forM]
    refine (hg a (by simp) kinds s hs (hR a (by simp))).bind fun _ kinds₁ s₁ hs₁ hle _ => ?_
    exact ih hs₁ (fun b hb => hmono _ _ b hle (hR b (by simp [hb])))
      fun b hb => hg b (by simp [hb])

theorem mapM {l : List α} {g : α → Lower β} {R : List Bool → α → Prop}
    (hs : s.Kinded floats kinds) (hR : ∀ a ∈ l, R kinds a)
    (hmono : ∀ ks ks' a, ks <+: ks' → R ks a → R ks' a)
    (hmono' : ∀ ks ks' b, ks <+: ks' → Q ks b → Q ks' b)
    (hg : ∀ a kinds' s', s'.Kinded floats kinds' → R kinds' a →
      Kinds floats kinds' s' (g a) Q) :
    Kinds floats kinds s (l.mapM g) fun ks bs => ∀ b ∈ bs, Q ks b := by
  induction l generalizing s kinds with
  | nil => exact pure hs (by simp)
  | cons a l ih =>
    rw [List.mapM_cons]
    refine (hg a kinds s hs (hR a (by simp))).bind fun b kinds₁ s₁ hs₁ hle hb => ?_
    refine (ih hs₁ fun a ha => hmono _ _ a hle (hR a (by simp [ha]))).bind
      fun bs kinds₂ s₂ hs₂ hle' hbs => ?_
    refine pure hs₂ fun b' hb' => ?_
    rcases List.mem_cons.mp hb' with rfl | hb'
    · exact hmono' _ _ _ hle' hb
    · exact hbs b' hb'

end Kinds

theorem State.Kinded.push (hs : s.Kinded floats kinds) {i : Instruction} (hi : i.Kinded kinds) :
    { s with code := s.code.push i }.Kinded floats kinds := by
  refine ⟨hs.length, fun j hj => ?_, hs.blocks, hs.incoming, hs.temps, hs.params, hs.homes⟩
  rw [Array.toList_push] at hj
  rcases List.mem_append.mp hj with hj | hj
  · exact hs.code j hj
  · exact List.mem_singleton.mp hj ▸ hi

/-- A function with the same blocks and parameters that has used one more id, of any kind. -/
theorem State.Kinded.withFunction (hs : s.Kinded floats kinds) {g : Machine.Function}
    (isFloat : Bool) (hblocks : g.blocks = s.function.blocks)
    (hparams : ∀ p ∈ g.params, p ∈ s.function.params ∨
      p.id = s.next ∧ p.isFloat = isFloat ∧ (p.isReturnBuffer → isFloat = false))
    (hnext : g.nextId = s.next + 1) :
    { s with function := g }.Kinded floats (kinds ++ [isFloat]) := by
  have hle : kinds <+: kinds ++ [isFloat] := List.prefix_append _ _
  refine ⟨?_, fun i hi => (hs.code i hi).mono hle, fun i hi => ?_, fun p hp => ?_,
    fun e he => getElem?_mono hle (hs.temps e he), fun name id ty h => ?_,
    fun name parts h part hpart => ?_⟩
  · rw [List.length_append, hs.length]
    exact hnext.symm
  · refine (hs.blocks i ?_).mono hle
    simpa [Machine.Function.instructions, hblocks] using hi
  · rcases hparams p hp with hp | ⟨hid, hfloat, hbuffer⟩
    · exact (hs.incoming p hp).imp_left (getElem?_mono hle)
    · rw [hid, hfloat, ← hs.length, List.getElem?_concat_length]
      exact ⟨rfl, hbuffer⟩
  · exact getElem?_mono hle (hs.params name id ty h)
  · exact getElem?_mono hle (hs.homes name parts h part hpart)

theorem kinds_emit (hs : s.Kinded floats kinds) {op : GenericOp} {operands : List Operand}
    (hoperands : ∀ o ∈ operands, o.Kinded kinds) :
    Kinds floats kinds s (emit op operands) fun _ _ => True :=
  .modify (hs.push ⟨hoperands, fun hstore => by cases hstore; rfl⟩)

theorem kinds_fresh (take : Machine.Function → Result (α × Machine.Function)) (isFloat : Bool)
    (hs : s.Kinded floats kinds)
    (h : ∀ r, take s.function = .ok r → r.2.blocks = s.function.blocks ∧
      (∀ p ∈ r.2.params, p ∈ s.function.params ∨
        p.id = s.next ∧ p.isFloat = isFloat ∧ (p.isReturnBuffer → isFloat = false)) ∧
      r.2.nextId = s.next + 1 ∧ P (kinds ++ [isFloat]) r.1) :
    Kinds floats kinds s (do
      let (a, function) ← check (take (← get).function)
      modify fun s => { s with function := function }
      return a) P := by
  refine .get_bind ⟨fun a s' hrun => ?_⟩
  cases htake : take s.function with
  | error e =>
    rw [htake] at hrun
    cases hrun
  | ok r =>
    rw [htake] at hrun
    cases hrun
    obtain ⟨hblocks, hparams, hnext, hP⟩ := h r htake
    exact ⟨_, List.prefix_append _ _, hs.withFunction isFloat hblocks hparams hnext, hP⟩

theorem kinds_freshId (hs : s.Kinded floats kinds) (isFloat : Bool) :
    Kinds floats kinds s freshId fun ks id => ks[id]? = some isFloat := by
  refine kinds_fresh (·.fresh) isFloat hs fun r hr => ?_
  cases Function.fresh_eq_ok hr
  refine ⟨rfl, fun p hp => .inl hp, rfl, ?_⟩
  show (kinds ++ [isFloat])[s.next]? = some isFloat
  rw [← hs.length, List.getElem?_concat_length]

theorem kinds_freshReg (hs : s.Kinded floats kinds) (ty : LowType) :
    Kinds floats kinds s (freshReg ty) fun ks o => o.Kinded ks :=
  (kinds_freshId hs ty.isFloat).bind fun _ _ _ hs' _ hid =>
    .pure hs' (Operand.kinded_virtualReg hid)

theorem kinds_freshSlot (hs : s.Kinded floats kinds) (bytes : Nat) :
    Kinds floats kinds s (freshSlot bytes) fun _ _ => True := by
  refine kinds_fresh (·.addSlot _) false hs fun r hr => ?_
  obtain ⟨r', hr', hr⟩ := bind_eq_ok.mp hr
  cases Function.fresh_eq_ok hr'
  cases hr
  exact ⟨rfl, fun p hp => .inl hp, rfl, trivial⟩

theorem kinds_freshParameter (hs : s.Kinded floats kinds) (ty : LowType)
    (isFloat isReturnBuffer : Bool) (hbuffer : isReturnBuffer → isFloat = false) :
    Kinds floats kinds s (freshParameter ty isFloat isReturnBuffer)
      fun ks id => ks[id]? = some isFloat := by
  refine kinds_fresh (·.addParameter ty isFloat isReturnBuffer) isFloat hs fun r hr => ?_
  obtain ⟨r', hr', hr⟩ := bind_eq_ok.mp hr
  cases Function.fresh_eq_ok hr'
  cases hr
  refine ⟨rfl, fun p hp => ?_, rfl, ?_⟩
  · rcases List.mem_append.mp hp with hp | hp
    · exact .inl hp
    · cases List.mem_singleton.mp hp
      exact .inr ⟨rfl, rfl, hbuffer⟩
  · show (kinds ++ [isFloat])[s.next]? = some isFloat
    rw [← hs.length, List.getElem?_concat_length]

theorem kinds_tempReg (hs : s.Kinded floats kinds) (id : Ir.TempId) {ty : LowType}
    (hty : ty.isFloat = floats id) :
    Kinds floats kinds s (tempReg id ty) fun ks o => o.Kinded ks := by
  refine .get_bind ?_
  split
  · next reg hlookup =>
    refine .pure hs (Operand.kinded_virtualReg ?_)
    rw [hty]
    exact hs.temps (id, reg) (mem_of_lookup_eq_some hlookup)
  · refine (kinds_freshId hs ty.isFloat).bind fun reg kinds₁ s₁ hs₁ _ hreg => ?_
    refine (Kinds.modify (g := fun s => { s with temps := (id, reg) :: s.temps })
      ⟨hs₁.length, hs₁.code, hs₁.blocks, hs₁.incoming, fun e he => ?_, hs₁.params, hs₁.homes⟩).bind
      fun _ kinds₂ s₂ hs₂ hle _ => ?_
    · rcases List.mem_cons.mp he with rfl | he
      · rw [hreg, hty]
      · exact hs₁.temps e he
    · exact .pure hs₂ (Operand.kinded_virtualReg (getElem?_mono hle hreg))

theorem kinds_setHome (hs : s.Kinded floats kinds) (name : AggregateName) {home : Home}
    (h : ∀ parts, home = .registers parts →
      ∀ part ∈ parts, kinds[part.1]? = some part.2.ty.isFloat) :
    Kinds floats kinds s (setHome name home) fun _ _ => True := by
  refine .modify ⟨hs.length, hs.code, hs.blocks, hs.incoming, hs.temps, hs.params,
    fun name' parts hmem => ?_⟩
  rcases List.mem_cons.mp hmem with heq | hmem
  · cases heq
    exact h parts rfl
  · exact hs.homes name' parts hmem

/-! ## What is remembered of values -/

theorem State.Kinded.homeRegisters? (hs : s.Kinded floats kinds) {value : Ir.Value}
    {parts : List (RegId × Piece)} (h : s.homeRegisters? value = some parts) :
    ∀ part ∈ parts, kinds[part.1]? = some part.2.ty.isFloat := by
  obtain ⟨name, hmem⟩ := State.mem_aggregates_of_homeRegisters? h
  exact hs.homes name parts hmem

theorem isFloat_lowType (c : Scope) (ty : Ir.Ty) : (c.lowType ty).isFloat = ty.isFloat := by
  cases ty <;> rfl

/-! ## Values -/

theorem kinds_emitAddress (hs : s.Kinded floats kinds) {dest : Operand} (hdest : dest.Kinded kinds)
    (value : Ir.Value) : Kinds floats kinds s (c.emitAddress dest value) fun _ _ => True := by
  refine .get_bind ?_
  split
  · refine kinds_emit hs ?_
    simpa using ⟨hdest, Operand.kinded_of_value? rfl rfl⟩
  · refine kinds_emit hs ?_
    simpa using ⟨hdest, Operand.kinded_of_value? rfl rfl⟩
  · exact .pure hs trivial

theorem kinds_addressOf (hs : s.Kinded floats kinds) (value : Ir.Value) :
    Kinds floats kinds s (c.addressOf value) fun ks o => o.Kinded ks := by
  refine (kinds_freshReg hs _).bind fun dest kinds₁ s₁ hs₁ _ hdest => ?_
  refine (kinds_emitAddress hs₁ hdest value).bind fun _ kinds₂ s₂ hs₂ hle _ => ?_
  exact .pure hs₂ (hdest.mono hle)

theorem kinds_operand (hs : s.Kinded floats kinds) {value : Ir.Value}
    (hvalue : value.StatesKind floats) :
    Kinds floats kinds s (c.operand value) fun ks o => o.Kinded ks := by
  cases value with
  | constant n ty => exact .pure hs (Operand.kinded_of_value? rfl rfl)
  | floatConstant x ty => exact .unsupported _
  | global name ty => exact kinds_addressOf hs _
  | temp id ty =>
    refine .get_bind ?_
    split
    · exact kinds_addressOf hs _
    · exact kinds_tempReg hs id ((isFloat_lowType c ty).trans hvalue)
  | param name ty =>
    refine .get_bind ?_
    split
    · next id ty' hlookup =>
      have hmem := mem_of_lookup_eq_some hlookup
      exact .pure hs (Operand.kinded_parameter (hs.params name id ty' hmem))
    · refine .get_bind ?_
      split
      · exact kinds_addressOf hs _
      · exact .unsupported _

theorem kinds_location (hs : s.Kinded floats kinds) {ptr : Ir.Value} (hptr : ptr.StatesKind floats)
    (ty : LowType) :
    Kinds floats kinds s (c.location ptr ty) fun _ o => o.IsBarePlace := by
  refine .get_bind ?_
  split
  · exact .pure hs ⟨rfl, rfl⟩
  · split
    · exact .unsupported _
    · refine (kinds_operand hs hptr).bind fun base kinds₁ s₁ hs₁ _ _ => ?_
      split
      · exact .pure hs₁ ⟨rfl, rfl⟩
      · exact .unsupported _

/-! ## Memory -/

theorem kinds_size (hs : s.Kinded floats kinds) (ty : Ir.Ty) :
    Kinds floats kinds s (c.size ty) fun _ _ => True :=
  .check hs fun _ _ => trivial

theorem kinds_fitsRegisters (hs : s.Kinded floats kinds) (ty : Ir.Ty) :
    Kinds floats kinds s (c.fitsRegisters ty) fun _ _ => True := by
  refine (kinds_size hs ty).bind fun bytes kinds₁ s₁ hs₁ _ _ => ?_
  refine (Kinds.check (P := fun _ => True) hs₁ fun _ _ => trivial).bind
    fun bits kinds₂ s₂ hs₂ _ _ => ?_
  exact .pure hs₂ trivial

theorem isFloat_piecesFrom (offset : Nat) (sizes : List Nat) :
    ∀ p ∈ piecesFrom offset sizes, p.ty.isFloat = false := by
  induction sizes generalizing offset with
  | nil => simp [piecesFrom]
  | cons size sizes ih => exact List.forall_mem_cons.mpr ⟨rfl, ih _⟩

theorem kinds_piecesOf (hs : s.Kinded floats kinds) (ty : Ir.Ty) :
    Kinds floats kinds s (c.piecesOf ty) fun _ pieces => ∀ p ∈ pieces, p.ty.isFloat = false :=
  (kinds_size hs ty).bind fun _ _ _ hs₁ _ _ => .pure hs₁ (isFloat_piecesFrom _ _)

theorem kinded_piece {location : Operand} (h : location.IsBarePlace) (p : Piece) :
    (p.of location).Kinded kinds := by
  obtain ⟨kind, ty, regClass⟩ := location
  obtain ⟨hplace, hclass⟩ := h
  cases kind <;> first | exact Operand.kinded_of_value? rfl hclass | cases hplace

theorem kinds_emitPieceCopy (hs : s.Kinded floats kinds) {dest source : Operand}
    (hdest : dest.IsBarePlace) (hsource : source.IsBarePlace) (p : Piece) :
    Kinds floats kinds s (Scope.emitPieceCopy dest source p) fun _ _ => True := by
  refine (kinds_freshReg hs p.ty).bind fun temp kinds₁ s₁ hs₁ _ htemp => ?_
  refine (kinds_emit hs₁ ?_).bind
    fun _ kinds₂ s₂ hs₂ hle _ => ?_
  · simpa using ⟨htemp, kinded_piece hsource p⟩
  · refine kinds_emit hs₂ ?_
    simpa using ⟨kinded_piece hdest p, htemp.mono hle⟩

theorem kinds_emitCopy (hs : s.Kinded floats kinds) {dest source : Operand}
    (hdest : dest.IsBarePlace) (hsource : source.IsBarePlace) (bytes : Nat) :
    Kinds floats kinds s (c.emitCopy dest source bytes) fun _ _ => True :=
  .forM (R := fun _ _ => True) hs (fun _ _ => trivial) (fun _ _ _ _ _ => trivial)
    fun p _ _ _ hs' _ => kinds_emitPieceCopy hs' hdest hsource p

theorem kinds_emitPieceLoad (hs : s.Kinded floats kinds) {location : Operand}
    (hlocation : location.IsBarePlace) (p : Piece) :
    Kinds floats kinds s (Scope.emitPieceLoad location p)
      fun ks part => ks[part.1]? = some part.2.ty.isFloat := by
  refine (kinds_freshId hs p.ty.isFloat).bind fun id kinds₁ s₁ hs₁ _ hid => ?_
  refine (kinds_emit hs₁ ?_).bind
    fun _ kinds₂ s₂ hs₂ hle _ => .pure hs₂ (getElem?_mono hle hid)
  simpa using ⟨Operand.kinded_virtualReg hid, kinded_piece hlocation p⟩

theorem kinds_lowerLoad (hs : s.Kinded floats kinds) {result : Ir.TempId} {ptr : Ir.Value}
    {ty : Ir.Ty} (hptr : ptr.StatesKind floats) (hresult : floats result = ty.isFloat) :
    Kinds floats kinds s (c.lowerLoad result ptr ty) fun _ _ => True := by
  unfold Scope.lowerLoad
  split
  · refine (kinds_location hs hptr _).bind fun location kinds₁ s₁ hs₁ _ hlocation => ?_
    refine (kinds_fitsRegisters hs₁ ty).bind fun fits kinds₂ s₂ hs₂ _ _ => ?_
    split
    · refine (kinds_piecesOf hs₂ ty).bind fun pieces kinds₃ s₃ hs₃ _ _ => ?_
      refine (Kinds.mapM (R := fun _ _ => True)
        (Q := fun ks part => ks[part.1]? = some part.2.ty.isFloat) hs₃
        (fun _ _ => trivial) (fun _ _ _ _ _ => trivial) (fun _ _ _ hle h => getElem?_mono hle h)
        fun p _ _ hs' _ => kinds_emitPieceLoad hs' hlocation p).bind
        fun parts kinds₄ s₄ hs₄ _ hparts => ?_
      exact kinds_setHome hs₄ _ fun parts' h => by cases h; exact hparts
    · refine (kinds_size hs₂ ty).bind fun bytes kinds₃ s₃ hs₃ _ _ => ?_
      refine (kinds_freshSlot hs₃ bytes).bind fun slot kinds₄ s₄ hs₄ _ _ => ?_
      refine (kinds_emitCopy hs₄ ⟨rfl, rfl⟩ hlocation bytes).bind fun _ kinds₅ s₅ hs₅ _ _ => ?_
      exact kinds_setHome hs₅ _ fun parts h => by cases h
  · refine (kinds_location hs hptr _).bind fun location kinds₁ s₁ hs₁ _ hlocation => ?_
    refine (kinds_tempReg hs₁ result ((isFloat_lowType c ty).trans hresult.symm)).bind
      fun dest kinds₂ s₂ hs₂ _ hdest => ?_
    refine kinds_emit hs₂ ?_
    simpa using ⟨hdest, hlocation.kinded⟩

theorem kinds_lowerStore (hs : s.Kinded floats kinds) {value ptr : Ir.Value}
    (hvalue : value.StatesKind floats) (hptr : ptr.StatesKind floats) :
    Kinds floats kinds s (c.lowerStore value ptr) fun _ _ => True := by
  dsimp only [Scope.lowerStore]
  split
  · refine (kinds_location hs hptr _).bind fun location kinds₁ s₁ hs₁ _ hlocation => .get_bind ?_
    split
    · next parts hparts =>
      refine .forM (R := fun ks part => ks[part.1]? = some part.2.ty.isFloat) hs₁
        (hs₁.homeRegisters? hparts) (fun _ _ _ hle h => getElem?_mono hle h)
        fun part _ kinds' s' hs' h => ?_
      refine kinds_emit hs' ?_
      simpa using ⟨kinded_piece hlocation part.2, Operand.kinded_virtualReg h⟩
    · refine (kinds_location hs₁ hvalue _).bind fun source kinds₂ s₂ hs₂ _ hsource => ?_
      refine (kinds_size hs₂ _).bind fun bytes kinds₃ s₃ hs₃ _ _ => ?_
      exact kinds_emitCopy hs₃ hlocation hsource bytes
  · refine (kinds_location hs hptr _).bind fun location kinds₁ s₁ hs₁ _ hlocation => ?_
    refine (kinds_operand hs₁ hvalue).bind fun source kinds₂ s₂ hs₂ _ hsource => ?_
    refine kinds_emit hs₂ ?_
    simpa using ⟨hlocation.kinded, hsource⟩

theorem kinds_emitOffset (hs : s.Kinded floats kinds) {dest base : Operand}
    (hdest : dest.Kinded kinds) (hbase : base.Kinded kinds) (offset : Int) :
    Kinds floats kinds s (c.emitOffset dest base offset) fun _ _ => True := by
  unfold Scope.emitOffset
  split
  · refine kinds_emit hs ?_
    simpa using ⟨hdest, hbase⟩
  · refine kinds_emit hs ?_
    simpa using ⟨hdest, hbase, Operand.kinded_of_value? rfl rfl⟩

theorem kinds_wideIndex (hs : s.Kinded floats kinds) {index : Ir.Value}
    (hindex : index.StatesKind floats) :
    Kinds floats kinds s (c.wideIndex index) fun ks o => o.Kinded ks := by
  refine (kinds_operand hs hindex).bind fun narrow kinds₁ s₁ hs₁ _ hnarrow => ?_
  split
  · refine (kinds_freshReg hs₁ _).bind fun wide kinds₂ s₂ hs₂ hle hwide => ?_
    refine (kinds_emit hs₂ (by simpa using ⟨hwide, hnarrow.mono hle⟩)).bind
      fun _ kinds₃ s₃ hs₃ hle' _ => .pure hs₃ (hwide.mono hle')
  · exact .pure hs₁ hnarrow

theorem kinds_scaledIndex (hs : s.Kinded floats kinds) {index : Ir.Value}
    (hindex : index.StatesKind floats) (element : Int) :
    Kinds floats kinds s (c.scaledIndex index element) fun ks o => o.Kinded ks := by
  refine (kinds_wideIndex hs hindex).bind fun wide kinds₁ s₁ hs₁ _ hwide => ?_
  split
  · exact .pure hs₁ hwide
  · refine (kinds_freshReg hs₁ _).bind fun product kinds₂ s₂ hs₂ hle hproduct => ?_
    refine (kinds_emit hs₂ ?_).bind
      fun _ kinds₃ s₃ hs₃ hle' _ => .pure hs₃ (hproduct.mono hle')
    simpa using ⟨hproduct, hwide.mono hle, Operand.kinded_of_value? rfl rfl⟩

theorem kinds_lowerElementPtr (hs : s.Kinded floats kinds) {result : Ir.TempId}
    {source index : Ir.Value} (hresult : floats result = false) (hsource : source.StatesKind floats)
    (hindex : index.StatesKind floats) :
    Kinds floats kinds s (c.lowerElementPtr result source index) fun _ _ => True := by
  dsimp only [Scope.lowerElementPtr]
  refine (kinds_operand hs hsource).bind fun base kinds₁ s₁ hs₁ _ hbase => ?_
  have hpointer : c.target.pointerType.isFloat = floats result := hresult.symm
  refine (kinds_tempReg hs₁ result hpointer).bind
    fun dest kinds₂ s₂ hs₂ hle₂ hdest => ?_
  have hbase := hbase.mono hle₂
  split
  · split
    · refine (Kinds.check (P := fun _ => True) hs₂ fun _ _ => trivial).bind
        fun offset kinds₃ s₃ hs₃ hle₃ _ => ?_
      cases offset with
      | none => exact .unsupported _
      | some offset => exact kinds_emitOffset hs₃ (hdest.mono hle₃) (hbase.mono hle₃) _
    · exact .unsupported _
  · refine (kinds_size hs₂ _).bind fun bytes kinds₃ s₃ hs₃ hle₃ _ => ?_
    split
    · refine (Kinds.check (P := fun _ => True) hs₃ fun _ _ => trivial).bind
        fun offset kinds₄ s₄ hs₄ hle₄ _ => ?_
      exact kinds_emitOffset hs₄ ((hdest.mono hle₃).mono hle₄) ((hbase.mono hle₃).mono hle₄) _
    · refine (kinds_scaledIndex hs₃ hindex _).bind fun scaled kinds₄ s₄ hs₄ hle₄ hscaled => ?_
      refine kinds_emit hs₄ ?_
      simpa using ⟨(hdest.mono hle₃).mono hle₄, (hbase.mono hle₃).mono hle₄, hscaled⟩

/-! ## Calls and returns -/

theorem kinds_emitInto (hs : s.Kinded floats kinds) {dest source : Operand}
    (hdest : dest.Kinded kinds) (hsource : source.Kinded kinds) :
    Kinds floats kinds s (emitInto dest source) fun _ _ => True :=
  kinds_emit hs (by simpa using ⟨hdest, hsource⟩)

theorem kinds_stage (hs : s.Kinded floats kinds) {source : Operand}
    (hsource : source.Kinded kinds) (ty : LowType) :
    Kinds floats kinds s (stage source ty) fun ks o => o.Kinded ks := by
  refine .get_bind ?_
  split
  · refine (kinds_freshReg hs ty).bind fun staged kinds₁ s₁ hs₁ hle hstaged => ?_
    refine (kinds_emitInto hs₁ hstaged (hsource.mono hle)).bind fun _ kinds₂ s₂ hs₂ hle' _ => ?_
    exact .pure hs₂ (hstaged.mono hle')
  · exact .pure hs hsource

/-- Both sides of a move agree with the kinds. -/
structure IsKindedPart (kinds : List Bool) (part : Operand × Operand) : Prop where
  dest : part.1.Kinded kinds
  source : part.2.Kinded kinds

theorem IsKindedPart.mono {part : Operand × Operand} (h : IsKindedPart kinds part)
    (hle : kinds <+: kinds') : IsKindedPart kinds' part :=
  ⟨h.dest.mono hle, h.source.mono hle⟩

theorem kinds_aggregateParts (hs : s.Kinded floats kinds) {value : Ir.Value}
    (hvalue : value.StatesKind floats) (registers : List RegId) :
    Kinds floats kinds s (c.aggregateParts value registers) fun ks parts =>
      ∀ part ∈ parts, IsKindedPart ks part := by
  dsimp only [Scope.aggregateParts]
  refine (kinds_piecesOf hs _).bind fun chunks kinds₁ s₁ hs₁ _ _ => ?_
  split
  · exact .unsupported_bind _
  · refine .get_bind ?_
    split
    · next parts hparts =>
      refine .pure hs₁ fun part hpart => ?_
      obtain ⟨⟨⟨reg, p⟩, root⟩, hzip, rfl⟩ := List.mem_map.mp hpart
      exact ⟨Operand.kinded_of_value? rfl rfl, Operand.kinded_virtualReg
        (hs₁.homeRegisters? hparts _ (List.of_mem_zip hzip).1)⟩
    · refine (kinds_location hs₁ hvalue _).bind fun location kinds₂ s₂ hs₂ _ hlocation => ?_
      refine .pure hs₂ fun part hpart => ?_
      obtain ⟨⟨p, root⟩, -, rfl⟩ := List.mem_map.mp hpart
      exact ⟨Operand.kinded_of_value? rfl rfl, kinded_piece hlocation p⟩

/-- An argument and its register agree with the kinds. -/
def IsKindedPlaced (kinds : List Bool) (p : Placed) : Prop :=
  p.dest.Kinded kinds ∧ ∀ source, p.argument = .copy source → source.Kinded kinds

theorem IsKindedPlaced.mono {p : Placed} (h : IsKindedPlaced kinds p) (hle : kinds <+: kinds') :
    IsKindedPlaced kinds' p :=
  ⟨h.1.mono hle, fun source heq => (h.2 source heq).mono hle⟩

theorem isKindedPlaced_copy {dest source : Operand} (hdest : dest.Kinded kinds)
    (hsource : source.Kinded kinds) : IsKindedPlaced kinds ⟨dest, .copy source⟩ :=
  ⟨hdest, fun _ heq => by cases heq; exact hsource⟩

theorem kinds_placeReturnBuffer (hs : s.Kinded floats kinds) {arg : Ir.Value}
    (harg : arg.StatesKind floats) :
    Kinds floats kinds s (c.placeReturnBuffer arg) IsKindedPlaced := by
  refine .get_bind ?_
  split
  · exact .pure hs ⟨Operand.kinded_of_value? rfl rfl, nofun⟩
  · refine (kinds_operand hs harg).bind fun source kinds₁ s₁ hs₁ _ hsource => ?_
    refine (kinds_stage hs₁ hsource _).bind fun staged kinds₂ s₂ hs₂ _ hstaged => ?_
    exact .pure hs₂ (isKindedPlaced_copy (Operand.kinded_of_value? rfl rfl) hstaged)

theorem kinds_placeAggregate (hs : s.Kinded floats kinds) (callee : String) (index : Nat)
    {arg : Ir.Value} (harg : arg.StatesKind floats) (cursor : Cursor) :
    Kinds floats kinds s (c.placeAggregate callee index arg cursor) fun ks r =>
      ∀ p ∈ r.1, IsKindedPlaced ks p := by
  refine (kinds_fitsRegisters hs arg.ty).bind fun fits kinds₁ s₁ hs₁ _ _ => ?_
  split
  · exact .unsupported_bind _
  · refine (kinds_aggregateParts hs₁ harg _).bind fun parts kinds₂ s₂ hs₂ _ hparts => ?_
    refine (Kinds.mapM (R := IsKindedPart) (Q := IsKindedPlaced) hs₂ hparts
      (fun _ _ _ hle h => h.mono hle) (fun _ _ _ hle h => h.mono hle)
      fun part kinds' s' hs' h => ?_).bind fun placed kinds₃ s₃ hs₃ _ hplaced => .pure hs₃ hplaced
    refine (kinds_stage hs' h.source _).bind fun staged kinds₄ s₄ hs₄ hle hstaged => ?_
    exact .pure hs₄ (isKindedPlaced_copy (h.dest.mono hle) hstaged)

theorem kinds_placeScalar (hs : s.Kinded floats kinds) (callee : String) {arg : Ir.Value}
    (harg : arg.StatesKind floats) (cursor : Cursor) :
    Kinds floats kinds s (c.placeScalar callee arg cursor) fun ks r => IsKindedPlaced ks r.1 := by
  dsimp only [Scope.placeScalar]
  refine (Kinds.check (P := fun _ => True) hs fun _ _ => trivial).bind
    fun root kinds₁ s₁ hs₁ _ _ => .get_bind ?_
  split
  · exact .pure hs₁ ⟨Operand.kinded_of_value? rfl rfl, nofun⟩
  · refine (kinds_operand hs₁ harg).bind fun source kinds₂ s₂ hs₂ _ hsource => ?_
    refine (kinds_stage hs₂ hsource _).bind fun staged kinds₃ s₃ hs₃ _ hstaged => ?_
    exact .pure hs₃ (isKindedPlaced_copy (Operand.kinded_of_value? rfl rfl) hstaged)

theorem kinds_placeArguments (hs : s.Kinded floats kinds) (callee : String)
    (returnBuffer : Option Nat) {args : List (Ir.Value × Nat)}
    (hargs : ∀ arg ∈ args, arg.1.StatesKind floats) (cursor : Cursor) :
    Kinds floats kinds s (c.placeArguments callee returnBuffer args cursor) fun ks placed =>
      ∀ p ∈ placed, IsKindedPlaced ks p := by
  induction args generalizing s kinds cursor with
  | nil => exact .pure hs (by simp)
  | cons arg args ih =>
    obtain ⟨harg, hrest⟩ := List.forall_mem_cons.mp hargs
    unfold Scope.placeArguments
    dsimp only
    split
    · refine (kinds_placeReturnBuffer hs harg).bind fun placed kinds₁ s₁ hs₁ _ hplaced => ?_
      refine (ih hs₁ hrest cursor).bind fun rest kinds₂ s₂ hs₂ hle hrest => .pure hs₂ ?_
      exact List.forall_mem_cons.mpr ⟨hplaced.mono hle, hrest⟩
    · split
      · refine (kinds_placeAggregate hs callee _ harg cursor).bind
          fun r kinds₁ s₁ hs₁ _ hplaced => ?_
        refine (ih hs₁ hrest r.2).bind fun rest kinds₂ s₂ hs₂ hle hrest => .pure hs₂ ?_
        exact List.forall_mem_append.mpr ⟨fun p hp => (hplaced p hp).mono hle, hrest⟩
      · refine (kinds_placeScalar hs callee harg cursor).bind fun r kinds₁ s₁ hs₁ _ hplaced => ?_
        refine (ih hs₁ hrest r.2).bind fun rest kinds₂ s₂ hs₂ hle hrest => .pure hs₂ ?_
        exact List.forall_mem_cons.mpr ⟨hplaced.mono hle, hrest⟩

theorem kinds_emitPlaced (hs : s.Kinded floats kinds) {p : Placed} (hp : IsKindedPlaced kinds p) :
    Kinds floats kinds s (c.emitPlaced p) fun _ _ => True := by
  obtain ⟨dest, argument⟩ := p
  cases argument with
  | copy source => exact kinds_emitInto hs hp.1 (hp.2 source rfl)
  | address value => exact kinds_emitAddress hs hp.1 value

theorem kinds_receiveAggregate (hs : s.Kinded floats kinds) (callee : String)
    (result : Ir.TempId) (ty : Ir.Ty) :
    Kinds floats kinds s (c.receiveAggregate callee result ty) fun _ _ => True := by
  refine (kinds_fitsRegisters hs ty).bind fun fits kinds₁ s₁ hs₁ _ _ => ?_
  split
  · exact .unsupported_bind _
  · refine (kinds_size hs₁ ty).bind fun bytes kinds₂ s₂ hs₂ _ _ => ?_
    refine (kinds_freshSlot hs₂ bytes).bind fun slot kinds₃ s₃ hs₃ _ _ => ?_
    refine (kinds_piecesOf hs₃ ty).bind fun chunks kinds₄ s₄ hs₄ _ _ => ?_
    refine (Kinds.forM (R := fun _ _ => True) hs₄ (fun _ _ => trivial) (fun _ _ _ _ _ => trivial)
      fun part _ kinds' s' hs' _ => ?_).bind fun _ kinds₅ s₅ hs₅ _ _ => ?_
    · refine kinds_emit hs' ?_
      simpa using ⟨kinded_piece ⟨rfl, rfl⟩ part.1, Operand.kinded_of_value? rfl rfl⟩
    · exact kinds_setHome hs₅ _ fun parts h => by cases h

theorem kinds_receiveScalar (hs : s.Kinded floats kinds) {result : Ir.TempId} {ty : Ir.Ty}
    (hresult : floats result = ty.isFloat) :
    Kinds floats kinds s (c.receiveScalar result ty) fun _ _ => True := by
  refine (Kinds.check (P := fun _ => True) hs fun _ _ => trivial).bind
    fun root kinds₁ s₁ hs₁ _ _ => ?_
  refine (kinds_tempReg hs₁ result ((isFloat_lowType c ty).trans hresult.symm)).bind
    fun dest kinds₂ s₂ hs₂ _ hdest => ?_
  refine kinds_emit hs₂ ?_
  simpa using ⟨hdest, Operand.kinded_of_value? rfl rfl⟩

theorem kinds_lowerCall (hs : s.Kinded floats kinds) {result : Option Ir.TempId} (callee : String)
    {args : List Ir.Value} (hargs : ∀ arg ∈ args, arg.StatesKind floats) {ty : Ir.Ty}
    (hresult : ∀ id, result = some id → floats id = ty.isFloat) (returnBuffer : Option Nat) :
    Kinds floats kinds s (c.lowerCall result callee args ty returnBuffer) fun _ _ => True := by
  refine (Kinds.modify (g := fun s => { s with function := { s.function with isCaller := true } })
    ⟨hs.length, hs.code, hs.blocks, hs.incoming, hs.temps, hs.params, hs.homes⟩).bind
    fun _ kinds₁ s₁ hs₁ _ _ => ?_
  have hindexed : ∀ arg ∈ args.zipIdx, arg.1.StatesKind floats :=
    fun arg harg => hargs arg.1 (List.fst_mem_of_mem_zipIdx harg)
  refine (kinds_placeArguments hs₁ callee returnBuffer hindexed _).bind
    fun placed kinds₂ s₂ hs₂ _ hplaced => ?_
  refine (Kinds.forM (R := IsKindedPlaced) hs₂ hplaced (fun _ _ _ hle h => h.mono hle)
    fun p _ _ s' hs' h => kinds_emitPlaced hs' h).bind fun _ kinds₃ s₃ hs₃ _ _ => ?_
  refine (kinds_emit hs₃ (by simpa using Operand.kinded_of_value? rfl rfl)).bind
    fun _ kinds₄ s₄ hs₄ _ _ => ?_
  split
  · exact .pure hs₄ trivial
  · next id =>
    have hid := hresult id rfl
    split
    · exact kinds_receiveAggregate hs₄ callee id ty
    · exact kinds_receiveScalar hs₄ hid

theorem kinds_lowerReturn (hs : s.Kinded floats kinds) {value : Option Ir.Value}
    (hvalue : ∀ v, value = some v → v.StatesKind floats) :
    Kinds floats kinds s (c.lowerReturn value) fun _ _ => True := by
  have hret : ∀ {kinds' s'}, s'.Kinded floats kinds' →
      Kinds floats kinds' s' (emit .ret []) fun _ _ => True :=
    fun hs' => kinds_emit hs' (by simp)
  cases value with
  | none => exact hret hs
  | some value =>
    have hvalue := hvalue value rfl
    dsimp only [Scope.lowerReturn]
    split
    · refine (kinds_fitsRegisters hs _).bind fun fits kinds₁ s₁ hs₁ _ _ => ?_
      split
      · exact .unsupported_bind _
      · refine (kinds_aggregateParts hs₁ hvalue _).bind fun parts kinds₂ s₂ hs₂ _ hparts => ?_
        refine (Kinds.forM (R := IsKindedPart) hs₂ hparts (fun _ _ _ hle h => h.mono hle)
          fun part _ _ s' hs' h => kinds_emitInto hs' h.dest h.source).bind
          fun _ kinds₃ s₃ hs₃ _ _ => hret hs₃
    · refine (kinds_operand hs hvalue).bind fun operand kinds₁ s₁ hs₁ _ hoperand => ?_
      split
      · refine (Kinds.check (P := fun _ => True) hs₁ fun _ _ => trivial).bind
          fun root kinds₂ s₂ hs₂ hle _ => ?_
        refine (kinds_emit hs₂ ?_).bind
          fun _ kinds₃ s₃ hs₃ _ _ => hret hs₃
        simpa using ⟨Operand.kinded_of_value? rfl rfl, hoperand.mono hle⟩
      · exact kinds_emit hs₁ (by simpa using hoperand)

/-! ## Functions -/

theorem kinds_lowerCompare (hs : s.Kinded floats kinds) {result : Ir.TempId} (rel : Ir.Relation)
    {lhs rhs : Ir.Value} (hresult : floats result = false) (hlhs : lhs.StatesKind floats)
    (hrhs : rhs.StatesKind floats) :
    Kinds floats kinds s (c.lowerCompare result rel lhs rhs) fun _ _ => True := by
  dsimp only [Scope.lowerCompare]
  refine (kinds_operand hs hlhs).bind fun lhs' kinds₁ s₁ hs₁ _ hlhs' => ?_
  refine (kinds_operand hs₁ hrhs).bind fun rhs' kinds₂ s₂ hs₂ hle₂ hrhs' => ?_
  have hbit : (LowType.integer 1).isFloat = floats result := hresult.symm
  refine (kinds_tempReg hs₂ result hbit).bind fun dest kinds₃ s₃ hs₃ hle₃ hdest => ?_
  refine .modify (hs₃.push ⟨?_, fun hstore => ?_⟩)
  · show ∀ o ∈ [dest, lhs', rhs'], o.Kinded kinds₃
    simpa using ⟨hdest, (hlhs'.mono hle₂).mono hle₃, hrhs'.mono hle₃⟩
  · split at hstore <;> cases hstore

theorem kinds_lowerJumpUnless (hs : s.Kinded floats kinds) (next target : Option String) :
    Kinds floats kinds s (Scope.lowerJumpUnless next target) fun _ _ => True := by
  unfold Scope.lowerJumpUnless
  split
  · exact kinds_emit hs (by simpa using Operand.kinded_of_value? rfl rfl)
  · exact .pure hs trivial

theorem kinds_lowerBranch (hs : s.Kinded floats kinds) {condition : Ir.Value}
    (hcondition : condition.StatesKind floats) (trueTarget : String)
    (falseTarget next : Option String) :
    Kinds floats kinds s (c.lowerBranch condition trueTarget falseTarget next)
      fun _ _ => True := by
  unfold Scope.lowerBranch
  split
  · exact kinds_lowerJumpUnless hs _ _
  · refine (kinds_operand hs hcondition).bind fun operand kinds₁ s₁ hs₁ _ hoperand => ?_
    refine kinds_emit hs₁ (List.forall_mem_cons.mpr ⟨hoperand, List.forall_mem_cons.mpr
      ⟨Operand.kinded_of_value? rfl rfl, fun o ho => ?_⟩⟩)
    obtain ⟨label, -, rfl⟩ := List.mem_map.mp ho
    exact Operand.kinded_of_value? rfl rfl

theorem kinds_lowerInstruction (hs : s.Kinded floats kinds) (next : Option String)
    {i : Ir.Instruction} (huses : ∀ use ∈ i.uses, use.value.StatesKind floats)
    (hi : i.GivesKind floats) :
    Kinds floats kinds s (c.lowerInstruction next i) fun _ _ => True := by
  cases i with
  | binary result op lhs rhs ty =>
    refine (kinds_operand hs (huses ⟨lhs, false⟩ (by simp [Ir.Instruction.uses]))).bind
      fun lhs' kinds₁ s₁ hs₁ _ hlhs => ?_
    refine (kinds_operand hs₁ (huses ⟨rhs, false⟩ (by simp [Ir.Instruction.uses]))).bind
      fun rhs' kinds₂ s₂ hs₂ hle₂ hrhs => ?_
    refine (kinds_tempReg hs₂ result ((isFloat_lowType c ty).trans hi.symm)).bind
      fun dest kinds₃ s₃ hs₃ hle₃ hdest => kinds_emit hs₃ ?_
    simpa using ⟨hdest, (hlhs.mono hle₂).mono hle₃, hrhs.mono hle₃⟩
  | unary result op operand ty =>
    refine (kinds_operand hs (huses ⟨operand, false⟩ (by simp [Ir.Instruction.uses]))).bind
      fun source kinds₁ s₁ hs₁ _ hsource => ?_
    refine (kinds_tempReg hs₁ result ((isFloat_lowType c ty).trans hi.symm)).bind
      fun dest kinds₂ s₂ hs₂ hle hdest => kinds_emit hs₂ ?_
    simpa using ⟨hdest, hsource.mono hle⟩
  | compare result rel lhs rhs =>
    exact kinds_lowerCompare hs rel hi (huses ⟨lhs, false⟩ (by simp [Ir.Instruction.uses]))
      (huses ⟨rhs, false⟩ (by simp [Ir.Instruction.uses]))
  | stackAlloc result name ty =>
    refine (kinds_size hs ty).bind fun bytes kinds₁ s₁ hs₁ _ _ => ?_
    refine (kinds_freshSlot hs₁ bytes).bind fun slot kinds₂ s₂ hs₂ _ _ => ?_
    exact .modify ⟨hs₂.length, hs₂.code, hs₂.blocks, hs₂.incoming, hs₂.temps, hs₂.params,
      hs₂.homes⟩
  | load result ptr ty =>
    exact kinds_lowerLoad hs (huses ⟨ptr, false⟩ (by simp [Ir.Instruction.uses])) hi
  | store value ptr =>
    exact kinds_lowerStore hs (huses ⟨value, value.ty.isAggregate⟩ (by simp [Ir.Instruction.uses]))
      (huses ⟨ptr, false⟩ (by simp [Ir.Instruction.uses]))
  | elementPtr result source index ty =>
    exact kinds_lowerElementPtr hs hi (huses ⟨source, false⟩ (by simp [Ir.Instruction.uses]))
      (huses ⟨index, false⟩ (by simp [Ir.Instruction.uses]))
  | memCopy dest source bytes =>
    refine (kinds_location hs (huses ⟨dest, false⟩ (by simp [Ir.Instruction.uses])) _).bind
      fun dest' kinds₁ s₁ hs₁ _ hdest => ?_
    refine (kinds_location hs₁ (huses ⟨source, false⟩ (by simp [Ir.Instruction.uses])) _).bind
      fun source' kinds₂ s₂ hs₂ _ hsource => ?_
    exact kinds_emitCopy hs₂ hdest hsource _
  | call result callee args ty returnBuffer =>
    refine kinds_lowerCall hs callee (fun arg harg => ?_) (fun id hid => ?_) _
    · obtain ⟨k, hk, rfl⟩ := List.getElem_of_mem harg
      exact huses ⟨args[k], _⟩ (List.mem_map.mpr
        ⟨(args[k], k), List.mem_zipIdx_iff_getElem?.mpr (List.getElem?_eq_getElem hk), rfl⟩)
    · subst hid
      exact hi
  | jump target =>
    exact kinds_emit hs (by simpa using Operand.kinded_of_value? rfl rfl)
  | branch condition trueTarget falseTarget =>
    exact kinds_lowerBranch hs (huses ⟨condition, false⟩ (by simp [Ir.Instruction.uses])) _ _ _
  | ret value =>
    refine kinds_lowerReturn hs fun v hv => ?_
    subst hv
    exact huses ⟨v, v.ty.isAggregate⟩ (by simp [Ir.Instruction.uses])

theorem kinds_setParameter (hs : s.Kinded floats kinds) (name : String) {id : RegId}
    {ty : LowType} (hid : kinds[id]? = some ty.isFloat) :
    Kinds floats kinds s (Scope.setParameter name id ty) fun _ _ => True := by
  refine .modify ⟨hs.length, hs.code, hs.blocks, hs.incoming, hs.temps, fun name' id' ty' h => ?_,
    hs.homes⟩
  rcases List.mem_cons.mp h with heq | h
  · cases heq
    exact hid
  · exact hs.params name' id' ty' h

theorem kinds_lowerParameter (hs : s.Kinded floats kinds) (p : Ir.Parameter) :
    Kinds floats kinds s (c.lowerParameter p) fun _ _ => True := by
  unfold Scope.lowerParameter
  split
  · exact (kinds_freshParameter hs _ false true fun _ => rfl).bind fun id _ s₁ hs₁ _ hid =>
      kinds_setParameter hs₁ _ hid
  · split
    · refine (kinds_fitsRegisters hs p.ty).bind fun fits kinds₁ s₁ hs₁ _ _ => ?_
      split
      · exact .unsupported_bind _
      · refine (kinds_size hs₁ p.ty).bind fun bytes kinds₂ s₂ hs₂ _ _ => ?_
        refine (kinds_freshSlot hs₂ bytes).bind fun slot kinds₃ s₃ hs₃ _ _ => ?_
        refine (kinds_piecesOf hs₃ p.ty).bind fun chunks kinds₄ s₄ hs₄ _ hchunks => ?_
        refine (Kinds.forM (R := fun _ _ => True) hs₄ (fun _ _ => trivial)
          (fun _ _ _ _ _ => trivial) fun piece hpiece kinds' s' hs' _ => ?_).bind
          fun _ kinds₅ s₅ hs₅ _ _ => ?_
        · refine (kinds_freshParameter hs' _ false false nofun).bind
            fun id kinds₆ s₆ hs₆ _ hid => ?_
          refine kinds_emit hs₆ ?_
          have hsource : (Operand.parameter id piece.ty).Kinded kinds₆ :=
            Operand.kinded_parameter (hid.trans (congrArg some (hchunks piece hpiece).symm))
          simpa using ⟨kinded_piece ⟨rfl, rfl⟩ piece, hsource⟩
        · exact kinds_setHome hs₅ _ fun parts h => by cases h
    · exact (kinds_freshParameter hs _ p.ty.isFloat false nofun).bind fun id _ s₁ hs₁ _ hid =>
        kinds_setParameter hs₁ _ (by rw [hid, isFloat_lowType])

theorem kinds_closeBlock (hs : s.Kinded floats kinds) (name : String) :
    Kinds floats kinds s (Scope.closeBlock name) fun _ _ => True := by
  refine .modify ⟨hs.length, by simp, fun i hi => ?_, hs.incoming, hs.temps, hs.params, hs.homes⟩
  obtain ⟨b, hb, hi⟩ := Machine.Function.mem_instructions.mp hi
  rcases List.mem_append.mp hb with hb | hb
  · exact hs.blocks i (Machine.Function.mem_instructions.mpr ⟨b, hb, hi⟩)
  · rw [List.mem_singleton.mp hb] at hi
    exact hs.code i hi

theorem kinds_lowerBlocks (hs : s.Kinded floats kinds) {blocks : List Ir.Block}
    (hblocks : ∀ b ∈ blocks, ∀ i ∈ b.instructions,
      (∀ use ∈ i.uses, use.value.StatesKind floats) ∧ i.GivesKind floats) :
    Kinds floats kinds s (c.lowerBlocks blocks) fun _ _ => True := by
  induction blocks generalizing s kinds with
  | nil => exact .pure hs trivial
  | cons b rest ih =>
    obtain ⟨hb, hrest⟩ := List.forall_mem_cons.mp hblocks
    refine (Kinds.forM (R := fun _ _ => True) hs (fun _ _ => trivial) (fun _ _ _ _ _ => trivial)
      fun i hi _ s' hs' _ => kinds_lowerInstruction hs' _ (hb i hi).1 (hb i hi).2).bind
      fun _ kinds₁ s₁ hs₁ _ _ => ?_
    exact (kinds_closeBlock hs₁ b.name).bind fun _ _ s₂ hs₂ _ _ => ih hs₂ hrest

end Lowering

namespace Machine

/-- The kinds of all ids in use, with which types and parameters agree. -/
structure Function.Kinded (kinds : List Bool) (f : Function) : Prop where
  length : kinds.length = f.nextId
  code : f.All (·.Kinded kinds)
  incoming : ∀ p ∈ f.params, kinds[p.id]? = some p.isFloat ∧ (p.isReturnBuffer → p.isFloat = false)

end Machine

/-- **Every id of a lowered function is of one kind.** -/
theorem Lowering.kinded_lowerFunction {t : Target} {f : Ir.Function} {floats : Ir.TempId → Bool}
    {g : Machine.Function} (hf : f.KeepsKinds floats) (h : lowerFunction t f = .ok g) :
    ∃ kinds, g.Kinded kinds := by
  have hstart : State.Kinded floats [] { function := { name := f.name } } :=
    ⟨rfl, by simp, by simp [Machine.Function.All, Machine.Function.instructions], by simp, by simp,
      by simp, by simp⟩
  have hbody : Kinds floats [] { function := { name := f.name } } (do
      f.parameters.forM (Scope.lowerParameter ⟨t, f.name⟩)
      Scope.lowerBlocks ⟨t, f.name⟩ f.blocks) fun _ _ => True := by
    refine (Kinds.forM (R := fun _ _ => True) hstart (fun _ _ => trivial)
      (fun _ _ _ _ _ => trivial) fun p _ _ s' hs' _ =>
        kinds_lowerParameter (c := ⟨t, f.name⟩) hs' p).bind fun _ _ s₁ hs₁ _ _ => ?_
    refine kinds_lowerBlocks (c := ⟨t, f.name⟩) hs₁ fun b hb i hi => ?_
    have hmem : i ∈ f.instructions := List.mem_flatMap.mpr ⟨b, hb, hi⟩
    exact ⟨hf.states i hmem, hf.gives i hmem⟩
  rw [lowerFunction] at h
  obtain ⟨⟨a, s'⟩, hrun, h⟩ := bind_eq_ok.mp h
  cases h
  obtain ⟨kinds, -, hs', -⟩ := hbody.ok a s' hrun
  exact ⟨kinds, hs'.length, hs'.blocks, hs'.incoming⟩

end Retarget
