import Retarget.Proofs.Convention.Parameters

/-!
# Arguments of calls

A call walks over its arguments and hands out argument registers one after the other.  Each argument
goes to the registers that a parameter of its type gets, and the call is rejected if and only if
there are none.  So caller and callee agree on the registers of arguments (`arguments_agree`).
-/

namespace Retarget.Lowering

open Machine

variable {c : Scope} {s s' : State}

/-! ## Reading values -/

/-- Both states have the values at the same places, but for new temporaries. -/
structure SameValues (s s' : State) : Prop where
  params : s'.params = s.params
  objects : s'.objects = s.objects
  aggregates : s'.aggregates = s.aggregates

theorem SameValues.of_evolves {E : Instruction → Prop} (h : Evolves E (fun _ => False) s s') :
    SameValues s s' := by
  induction h with
  | refl => exact ⟨rfl, rfl, rfl⟩
  | tail _ hstep ih =>
    cases hstep with
    | note h => exact h.elim
    | _ => exact ⟨ih.params, ih.objects, ih.aggregates⟩

theorem SameValues.frameObject? (h : SameValues s s') (value : Ir.Value) :
    s'.frameObject? value = s.frameObject? value := by
  cases value <;> simp only [State.frameObject?, State.homeSlot?, h.objects, h.aggregates]

theorem SameValues.homeRegisters? (h : SameValues s s') (value : Ir.Value) :
    s'.homeRegisters? value = s.homeRegisters? value := by
  rw [State.homeRegisters?, State.homeRegisters?, h.aggregates]

theorem SameValues.trans {s₁ s₂ s₃ : State} (h : SameValues s₁ s₂) (h' : SameValues s₂ s₃) :
    SameValues s₁ s₃ :=
  ⟨h'.params.trans h.params, h'.objects.trans h.objects, h'.aggregates.trans h.aggregates⟩

/-- A step that only reads values leaves them where they are. -/
theorem Goes.sameValues {α : Type} {x : Lower α} {P : α → Prop} {a : α}
    (h : Goes (fun _ => True) (fun _ => False) s x P) (hrun : x.run s = .ok (a, s')) :
    SameValues s s' :=
  .of_evolves (h.ok a s' hrun).1

/-- Lowering can read the value: it is no floating-point constant, no constant of an aggregate type,
and no parameter that the function does not have. -/
def State.IsReadable (s : State) : Ir.Value → Prop
  | .floatConstant _ _ => False
  | .constant _ ty => ty.isAggregate = false
  | .param name ty => (s.params.lookup name).isSome ∨ (s.frameObject? (.param name ty)).isSome
  | .temp _ _ | .global _ _ => True

/-- The value can be read, and an aggregate in registers is there with the pieces of its type. -/
structure State.CanPass (c : Scope) (s : State) (arg : Ir.Value) : Prop where
  readable : s.IsReadable arg
  typed : ∀ parts, s.homeRegisters? arg = some parts → ∃ bytes,
    arg.ty.size c.target.pointerBytes = .ok bytes ∧
      parts.map (·.2) = pieces c.target.pointerBytes bytes

theorem State.CanPass.of_sameValues {arg : Ir.Value} (h : s.CanPass c arg) (hs : SameValues s s') :
    s'.CanPass c arg := by
  refine ⟨?_, fun parts hparts => h.typed parts (hs.homeRegisters? arg ▸ hparts)⟩
  have hreadable := h.readable
  cases arg with
  | param name ty =>
    rw [State.IsReadable] at hreadable ⊢
    rwa [hs.params, hs.frameObject?]
  | _ => exact hreadable

/-- From a state with enough ids, the step succeeds and takes no more than `cost` of them. -/
def Succeeds {α : Type} (s : State) (x : Lower α) (cost : Nat) (P : α → Prop) : Prop :=
  s.function.nextId + cost < Word.modulus 32 →
    ∃ a s', x.run s = .ok (a, s') ∧ s'.function.nextId ≤ s.function.nextId + cost ∧ P a

theorem Succeeds.bind {α β : Type} {x : Lower α} {g : α → Lower β} {m n k : Nat} {P : α → Prop}
    {Q : β → Prop} (hx : Succeeds s x m P) (hle : m + n ≤ k)
    (hg : ∀ a s', x.run s = .ok (a, s') → P a → Succeeds s' (g a) n Q) :
    Succeeds s (x >>= g) k Q := by
  intro hids
  obtain ⟨a, s₁, hrun, hle₁, ha⟩ := hx (by omega)
  obtain ⟨b, s₂, hrun', hle₂, hb⟩ := hg a s₁ hrun ha (by omega)
  exact ⟨b, s₂, run_bind_eq_ok.mpr ⟨a, s₁, hrun, hrun'⟩, by omega, hb⟩

theorem Succeeds.get_bind {α : Type} {g : State → Lower α} {n : Nat} {P : α → Prop}
    (h : Succeeds s (g s) n P) : Succeeds s (get >>= g) n P := h

theorem Succeeds.pure {α : Type} {a : α} {P : α → Prop} (h : P a) (cost : Nat) :
    Succeeds s (Pure.pure a) cost P :=
  fun _ => ⟨a, s, rfl, Nat.le_add_right _ _, h⟩

theorem Succeeds.mono {α : Type} {x : Lower α} {m n : Nat} {P Q : α → Prop} (h : Succeeds s x m P)
    (hle : m ≤ n) (hPQ : ∀ a, P a → Q a) : Succeeds s x n Q := by
  intro hids
  obtain ⟨a, s₁, hrun, hle', ha⟩ := h (by omega)
  exact ⟨a, s₁, hrun, by omega, hPQ a ha⟩

theorem succeeds_freshId : Succeeds s freshId 1 fun _ => True := by
  intro hids
  exact ⟨_, _, run_freshId_eq_ok.mpr ⟨hids, rfl, rfl⟩, Nat.le_refl _, trivial⟩

theorem succeeds_emit (op : GenericOp) (operands : List Operand) :
    Succeeds s (emit op operands) 0 fun _ => True :=
  fun _ => ⟨(), _, run_emit op operands, Nat.le_refl _, trivial⟩

theorem succeeds_emitAddress (dest : Operand) (value : Ir.Value) :
    Succeeds s (c.emitAddress dest value) 0 fun _ => True := by
  unfold Scope.emitAddress
  refine .get_bind ?_
  split
  · exact succeeds_emit _ _
  · exact succeeds_emit _ _
  · exact .pure trivial 0

theorem succeeds_freshReg (ty : LowType) :
    Succeeds s (freshReg ty) 1 fun o => o.unallocated?.isSome :=
  succeeds_freshId.bind (Nat.le_refl 1) fun id _ _ _ =>
    .pure (P := fun o : Operand => o.unallocated?.isSome) (a := .virtualReg id ty) rfl 0

theorem succeeds_addressOf (value : Ir.Value) :
    Succeeds s (c.addressOf value) 1 fun o => o.unallocated?.isSome :=
  (succeeds_freshReg _).bind (Nat.le_refl 1) fun dest _ _ hdest =>
    (succeeds_emitAddress dest value).bind (Nat.le_refl 0) fun _ _ _ _ =>
      .pure (P := fun o : Operand => o.unallocated?.isSome) hdest 0

theorem succeeds_tempReg (id : Ir.TempId) (ty : LowType) :
    Succeeds s (tempReg id ty) 1 fun o => o.unallocated?.isSome := by
  unfold tempReg
  refine .get_bind ?_
  split
  · exact fun _ => ⟨_, _, rfl, Nat.le_add_right _ _, rfl⟩
  · intro hids
    exact ⟨_, _, run_bind_eq_ok.mpr ⟨_, _, run_freshId_eq_ok.mpr ⟨hids, rfl, rfl⟩, rfl⟩,
      Nat.le_refl _, rfl⟩

theorem succeeds_operand {value : Ir.Value} (h : s.IsReadable value) :
    Succeeds s (c.operand value) 1 fun o => value.isConstant = false → o.unallocated?.isSome := by
  have haddress : Succeeds s (c.addressOf value) 1 fun o =>
      value.isConstant = false → o.unallocated?.isSome :=
    (succeeds_addressOf value).mono (Nat.le_refl _) fun _ ho _ => ho
  unfold Scope.operand
  split
  · exact .pure (fun h => by cases h) 1
  · cases h
  · exact haddress
  · next id ty =>
    show Succeeds s (if (s.frameObject? (.temp id ty)).isSome then _ else _ : Lower Operand) 1 _
    split
    · exact haddress
    · exact (succeeds_tempReg _ _).mono (Nat.le_refl _) fun _ ho _ => ho
  · next name ty =>
    refine .get_bind ?_
    split
    · exact .pure (fun _ => rfl) 1
    · next hnone =>
      have hframe := h.resolve_left (by simp [hnone])
      show Succeeds s (if (s.frameObject? (.param name ty)).isSome then _ else _ : Lower Operand) 1 _
      rw [if_pos hframe]
      exact haddress

theorem succeeds_location {value : Ir.Value} (h : s.IsReadable value)
    (hty : value.ty.isAggregate) (ty : LowType) :
    Succeeds s (c.location value ty) 1 fun _ => True := by
  have hconstant : value.isConstant = false := by
    cases value with
    | constant n ty =>
      rw [State.IsReadable] at h
      exact absurd hty (by simp [Ir.Value.ty, h])
    | floatConstant x ty => cases h
    | _ => rfl
  unfold Scope.location
  refine .get_bind ?_
  split
  · exact .pure trivial 1
  · rw [hconstant, if_neg Bool.false_ne_true]
    refine (succeeds_operand h).bind (n := 0) (Nat.le_refl 1) fun base s₁ _ hbase => ?_
    obtain ⟨reg, hreg⟩ := Option.isSome_iff_exists.mp (hbase hconstant)
    rw [hreg]
    exact .pure trivial 0

theorem succeeds_stage (source : Operand) (ty : LowType) :
    Succeeds s (stage source ty) 1 fun _ => True := by
  show Succeeds s (if s.readsParameter source then _ else _ : Lower Operand) 1 _
  split
  · refine (succeeds_freshReg ty).bind (n := 0) (Nat.le_refl 1) fun staged s₁ _ _ => ?_
    exact (succeeds_emit _ _).bind (Nat.le_refl 0) fun _ _ _ _ => .pure trivial 0
  · exact .pure trivial 1

/-! ## Placing arguments -/

/-- The type of an operand, and the full-width register that it names. -/
def rootOf (t : Target) (o : Operand) : LowType × Option RegId :=
  (o.ty, match o.kind with
    | .physicalReg reg => some (t.registers.root reg)
    | _ => none)

theorem placeReturnBuffer_dest {arg : Ir.Value} {placed : Placed}
    (h : (c.placeReturnBuffer arg).run s = .ok (placed, s')) :
    placed.dest = c.physical c.target.registers.returnBuffer c.target.pointerType := by
  rw [Scope.placeReturnBuffer, run_get_bind] at h
  split at h
  · cases h
    rfl
  · obtain ⟨source, s₁, -, h⟩ := run_bind_eq_ok.mp h
    obtain ⟨staged, s₂, -, h⟩ := run_bind_eq_ok.mp h
    cases h
    rfl

theorem succeeds_placeReturnBuffer {arg : Ir.Value} (h : s.IsReadable arg) :
    Succeeds s (c.placeReturnBuffer arg) 2 fun _ => True := by
  show Succeeds s (if s.isAddressable arg then _ else _ : Lower Placed) 2 _
  split
  · exact .pure trivial 2
  · refine (succeeds_operand h).bind (n := 1) (Nat.le_refl 2) fun source s₁ _ _ => ?_
    exact (succeeds_stage source _).bind (n := 0) (Nat.le_refl 1) fun _ _ _ _ => .pure trivial 0

/-- The cursor behind a scalar argument. -/
def Cursor.behind (cursor : Cursor) (isFloat : Bool) : Cursor :=
  if isFloat then { cursor with nextFloat := cursor.nextFloat + 1 }
  else { cursor with next := cursor.next + 1 }

def Cursor.register? (cursor : Cursor) (t : Target) (isFloat : Bool) : Option RegId :=
  (t.convention.argumentsOf isFloat)[if isFloat then cursor.nextFloat else cursor.next]?

theorem placeScalar_dest {callee : String} {arg : Ir.Value} {cursor : Cursor}
    {r : Placed × Cursor} (h : (c.placeScalar callee arg cursor).run s = .ok (r, s')) :
    ∃ reg, cursor.register? c.target arg.ty.isFloat = some reg ∧
      r.1.dest = c.physical reg (c.lowType arg.ty) ∧ r.2 = cursor.behind arg.ty.isFloat := by
  dsimp only [Scope.placeScalar] at h
  obtain ⟨reg, s₁, hcheck, hrun⟩ := run_bind_eq_ok.mp h
  refine ⟨reg, orFail_eq_ok.mp (run_check_eq_ok.mp hcheck).1, ?_⟩
  rw [run_get_bind] at hrun
  split at hrun
  · cases hrun
    exact ⟨rfl, rfl⟩
  · obtain ⟨source, s₂, -, hrun⟩ := run_bind_eq_ok.mp hrun
    obtain ⟨staged, s₃, -, hrun⟩ := run_bind_eq_ok.mp hrun
    cases hrun
    exact ⟨rfl, rfl⟩

theorem succeeds_placeScalar {callee : String} {arg : Ir.Value} {cursor : Cursor} {reg : RegId}
    (h : s.IsReadable arg) (hreg : cursor.register? c.target arg.ty.isFloat = some reg) :
    Succeeds s (c.placeScalar callee arg cursor) 2 fun _ => True := by
  have hcheck : ∀ failure, Succeeds s (check (orFail failure
      (cursor.register? c.target arg.ty.isFloat))) 0 fun _ => True :=
    fun failure _ => ⟨reg, s, run_check_eq_ok.mpr ⟨orFail_eq_ok.mpr hreg, rfl⟩, Nat.le_refl _,
      trivial⟩
  dsimp only [Scope.placeScalar]
  refine (hcheck _).bind (n := 2) (Nat.le_refl 2) fun root s₁ hrun _ => ?_
  obtain ⟨-, rfl⟩ := run_check_eq_ok.mp hrun
  show Succeeds s₁ (if arg.ty.isPointer && s₁.isAddressable arg then _ else _ :
    Lower (Placed × Cursor)) 2 _
  split
  · exact .pure trivial 2
  · refine (succeeds_operand h).bind (n := 1) (Nat.le_refl 2) fun source s₂ _ _ => ?_
    exact (succeeds_stage source _).bind (n := 0) (Nat.le_refl 1) fun _ _ _ _ => .pure trivial 0

/-- The registers that pieces go to. -/
def Scope.pieceDests (c : Scope) (ps : List Piece) (registers : List RegId) : List Operand :=
  (ps.zip registers).map fun part => c.physical part.2 part.1.ty

theorem aggregateParts_dest {arg : Ir.Value} {registers : List RegId}
    {parts : List (Operand × Operand)} (hpass : s.CanPass c arg)
    (h : (c.aggregateParts arg registers).run s = .ok (parts, s')) :
    ∃ bytes, arg.ty.size c.target.pointerBytes = .ok bytes ∧
      (pieces c.target.pointerBytes bytes).length ≤ registers.length ∧
      parts.map (·.1) = c.pieceDests (pieces c.target.pointerBytes bytes) registers := by
  obtain ⟨bytes, hsize, hle, hparts⟩ := run_aggregateParts_eq_ok.mp h
  refine ⟨bytes, hsize, hle, ?_⟩
  rw [Scope.pieceDests]
  rcases hparts with ⟨home, hhome, -, rfl⟩ | ⟨-, location, -, rfl⟩
  · obtain ⟨bytes', hsize', hpieces⟩ := hpass.typed home hhome
    cases hsize.symm.trans hsize'
    rw [← hpieces, List.zip_map_left, List.map_map, List.map_map]
    rfl
  · rw [List.map_map]
    rfl

theorem succeeds_aggregateParts {arg : Ir.Value} {registers : List RegId} {bytes : Nat}
    (h : s.IsReadable arg) (hty : arg.ty.isAggregate)
    (hsize : arg.ty.size c.target.pointerBytes = .ok bytes)
    (hle : (pieces c.target.pointerBytes bytes).length ≤ registers.length) :
    Succeeds s (c.aggregateParts arg registers) 1 fun _ => True := by
  intro hids
  cases hhome : s.homeRegisters? arg with
  | some home =>
    exact ⟨_, s, run_aggregateParts_eq_ok.mpr ⟨bytes, hsize, hle, .inl ⟨home, hhome, rfl, rfl⟩⟩,
      Nat.le_add_right _ _, trivial⟩
  | none =>
    obtain ⟨location, s₁, hrun, hle₁, -⟩ :=
      succeeds_location (c := c) h hty c.target.pointerType hids
    exact ⟨_, s₁, run_aggregateParts_eq_ok.mpr
      ⟨bytes, hsize, hle, .inr ⟨hhome, location, hrun, rfl⟩⟩, hle₁, trivial⟩

/-- Staging a part keeps its register. -/
def stagePart (part : Operand × Operand) : Lower Placed := do
  let source ← stage part.2 part.1.ty
  return ⟨part.1, .copy source⟩

theorem forall₂_mapM_stagePart {parts : List (Operand × Operand)} {placed : List Placed}
    (h : (parts.mapM stagePart).run s = .ok (placed, s')) :
    List.Forall₂ (fun part p => ∃ source, p = ⟨part.1, .copy source⟩) parts placed := by
  induction parts generalizing s placed with
  | nil =>
    cases h
    exact .nil
  | cons part parts ih =>
    rw [List.mapM_cons] at h
    obtain ⟨first, s₁, hfirst, h⟩ := run_bind_eq_ok.mp h
    obtain ⟨rest, s₂, hrest, h⟩ := run_bind_eq_ok.mp h
    obtain ⟨staged, s₃, -, hfirst⟩ := run_bind_eq_ok.mp hfirst
    cases h
    cases hfirst
    exact .cons ⟨staged, rfl⟩ (ih hrest)

theorem mapM_stagePart_dest {parts : List (Operand × Operand)} {placed : List Placed}
    (h : (parts.mapM stagePart).run s = .ok (placed, s')) :
    placed.map (·.dest) = parts.map (·.1) := by
  rw [← List.forall₂_eq_eq_eq, List.forall₂_map_left_iff, List.forall₂_map_right_iff]
  refine (forall₂_mapM_stagePart h).flip.imp fun p part hp => ?_
  obtain ⟨source, rfl⟩ := hp
  rfl

theorem succeeds_mapM_stagePart (parts : List (Operand × Operand)) :
    Succeeds s (parts.mapM stagePart) parts.length fun _ => True := by
  induction parts generalizing s with
  | nil => exact .pure trivial 0
  | cons part parts ih =>
    rw [List.mapM_cons]
    have hfirst : Succeeds s (stagePart part) 1 fun _ => True :=
      (succeeds_stage part.2 _).bind (n := 0) (Nat.le_refl 1) fun _ _ _ _ => .pure trivial 0
    refine hfirst.bind (n := parts.length) (by simp; omega) fun first s₁ _ _ => ?_
    exact ih.bind (n := 0) (Nat.le_refl _) fun _ _ _ _ => .pure trivial 0

theorem exists_of_run_placeAggregate {callee : String} {index : Nat} {arg : Ir.Value}
    {cursor : Cursor} {r : List Placed × Cursor}
    (h : (c.placeAggregate callee index arg cursor).run s = .ok (r, s')) :
    ∃ bytes parts s₁, arg.ty.size c.target.pointerBytes = .ok bytes ∧
      bytes * 8 ≤ c.target.convention.maxAggregateBits ∧
      (c.aggregateParts arg (c.target.convention.arguments.drop cursor.next)).run s =
        .ok (parts, s₁) ∧
      (parts.mapM stagePart).run s₁ = .ok (r.1, s') ∧
      r.2 = { cursor with next := cursor.next + r.1.length } := by
  rw [Scope.placeAggregate] at h
  obtain ⟨fits, s₁, hfits, h⟩ := run_bind_eq_ok.mp h
  obtain ⟨bytes, hsize, -, rfl, rfl⟩ := run_fitsRegisters_eq_ok.mp hfits
  split at h
  · cases h
  · next hle =>
    obtain ⟨parts, s₂, hparts, h⟩ := run_bind_eq_ok.mp h
    obtain ⟨placed, s₃, hplaced, h⟩ := run_bind_eq_ok.mp h
    cases h
    have hlength : placed.length = parts.length := by
      simpa using congrArg List.length (mapM_stagePart_dest hplaced)
    exact ⟨bytes, parts, s₂, hsize, by simpa using hle, hparts, hplaced, by rw [hlength]⟩

theorem placeAggregate_dest {callee : String} {index : Nat} {arg : Ir.Value} {cursor : Cursor}
    {r : List Placed × Cursor} (hpass : s.CanPass c arg)
    (h : (c.placeAggregate callee index arg cursor).run s = .ok (r, s')) :
    ∃ bytes, arg.ty.size c.target.pointerBytes = .ok bytes ∧
      bytes * 8 ≤ c.target.convention.maxAggregateBits ∧
      (pieces c.target.pointerBytes bytes).length ≤
        (c.target.convention.arguments.drop cursor.next).length ∧
      r.1.map (·.dest) = c.pieceDests (pieces c.target.pointerBytes bytes)
        (c.target.convention.arguments.drop cursor.next) ∧
      r.2 = { cursor with
        next := cursor.next + (pieces c.target.pointerBytes bytes).length } := by
  obtain ⟨bytes, parts, s₁, hsize, hfits, hparts, hplaced, hcursor⟩ :=
    exists_of_run_placeAggregate h
  obtain ⟨bytes', hsize', hle, hdest⟩ := aggregateParts_dest hpass hparts
  cases hsize.symm.trans hsize'
  replace hdest := (mapM_stagePart_dest hplaced).trans hdest
  refine ⟨bytes, hsize, hfits, hle, hdest, ?_⟩
  have hlength := congrArg List.length hdest
  rw [List.length_map, Scope.pieceDests, List.length_map, List.length_zip,
    Nat.min_eq_left hle] at hlength
  rw [hcursor, hlength]

theorem succeeds_placeAggregate (a : Arch) (hc : c.target = a.target) {callee : String} {index : Nat}
    {arg : Ir.Value} {cursor : Cursor} {bytes : Nat} (hpass : s.CanPass c arg)
    (hty : arg.ty.isAggregate) (hsize : arg.ty.size c.target.pointerBytes = .ok bytes)
    (hfits : bytes * 8 ≤ c.target.convention.maxAggregateBits)
    (hle : (pieces c.target.pointerBytes bytes).length ≤
      (c.target.convention.arguments.drop cursor.next).length) :
    Succeeds s (c.placeAggregate callee index arg cursor)
      (1 + (pieces c.target.pointerBytes bytes).length) fun _ => True := by
  have hlt : bytes * 8 < Word.modulus 64 :=
    Nat.lt_of_le_of_lt hfits (hc ▸ a.maxAggregateBits_lt)
  have hcheck : Succeeds s (c.fitsRegisters arg.ty) 0 fun fits => fits = true := fun _ =>
    ⟨_, s, run_fitsRegisters_eq_ok.mpr ⟨bytes, hsize, hlt, rfl, rfl⟩, Nat.le_refl _,
      decide_eq_true hfits⟩
  rw [Scope.placeAggregate]
  refine hcheck.bind (n := 1 + (pieces c.target.pointerBytes bytes).length) (by omega)
    fun fits s₁ hrun htrue => ?_
  obtain ⟨_, -, -, rfl, -⟩ := run_fitsRegisters_eq_ok.mp hrun
  rw [htrue]
  refine Succeeds.bind (n := (pieces c.target.pointerBytes bytes).length)
    (succeeds_aggregateParts hpass.readable hty hsize hle) (Nat.le_refl _)
    fun parts s₂ hparts _ => ?_
  obtain ⟨bytes', hsize', -, hdest⟩ := aggregateParts_dest hpass hparts
  cases hsize.symm.trans hsize'
  have hlength := congrArg List.length hdest
  rw [List.length_map, Scope.pieceDests, List.length_map, List.length_zip,
    Nat.min_eq_left hle] at hlength
  rw [← hlength]
  exact Succeeds.bind (n := 0) (succeeds_mapM_stagePart parts) (Nat.le_refl _)
    fun placed s₃ _ _ => .pure trivial 0

/-! ## All arguments -/

/-- Where an argument of the call stands for a parameter. -/
structure Stands (returnBuffer : Option Nat) (k : Nat) (params : List Ir.Parameter)
    (args : List Ir.Value) : Prop where
  types : args.map (·.ty) = params.map (·.ty)
  buffer : ∀ (j : Nat) (p : Ir.Parameter), params[j]? = some p →
    (p.isReturnBuffer ↔ returnBuffer = some (k + j))

theorem Stands.cons {returnBuffer : Option Nat} {k : Nat} {p : Ir.Parameter}
    {ps : List Ir.Parameter} {args : List Ir.Value} (h : Stands returnBuffer k (p :: ps) args) :
    ∃ arg rest, args = arg :: rest ∧ arg.ty = p.ty ∧
      (p.isReturnBuffer ↔ returnBuffer = some k) ∧ Stands returnBuffer (k + 1) ps rest := by
  obtain ⟨arg, rest, rfl, hty, hrest⟩ := List.map_eq_cons_iff.mp h.types
  refine ⟨arg, rest, rfl, hty, by simpa using h.buffer 0 p rfl, hrest, fun j q hq => ?_⟩
  have hbuffer := h.buffer (j + 1) q (by simpa using hq)
  rwa [← Nat.add_assoc, Nat.add_right_comm] at hbuffer

theorem rootOf_physical (a : Arch) (hc : c.target = a.target) (reg : RegId) (ty : LowType) :
    rootOf c.target (c.physical reg ty) = (ty, some (c.target.registers.root reg)) := by
  rw [rootOf, Scope.physical, Operand.physicalReg, hc]
  exact congrArg (fun root => (ty, some root)) (a.root_withWidth reg ty.bits)

theorem map_rootOf_pieceDests (a : Arch) (hc : c.target = a.target) {ps : List Piece}
    {registers : List RegId} (hle : ps.length ≤ registers.length) :
    (c.pieceDests ps registers).map (rootOf c.target) =
      (ps.map (·.ty)).zip (((registers.take ps.length).map c.target.registers.root).map some) := by
  rw [Scope.pieceDests, List.map_map]
  induction ps generalizing registers with
  | nil => simp
  | cons p ps ih =>
    cases registers with
    | nil => simp at hle
    | cons reg registers =>
      have hrest := ih (show ps.length ≤ registers.length by simpa using hle)
      simp only [List.zip_cons_cons, List.map_cons, Function.comp_apply, List.length_cons,
        List.take_succ_cons, rootOf_physical a hc]
      exact congrArg _ hrest

/-- The types of what is wanted, with the registers that it gets. -/
def granted (ws : List Want) (rs : List RegId) : List (LowType × Option RegId) :=
  (ws.map (·.ty)).zip (rs.map some)

/-- What is wanted gets the registers `rs`, and the rest the registers behind. -/
structure Grants (t : Target) (cursor : Cursor) (ws : List Want) (rs : List RegId)
    (cursor' : Cursor) : Prop where
  length_eq : rs.length = ws.length
  roots : ∀ rest, roots? t cursor.next cursor.nextFloat (ws ++ rest) =
    (roots? t cursor'.next cursor'.nextFloat rest).map (rs ++ ·)

theorem granted_append {ws ws' : List Want} {rs rs' : List RegId} (h : rs.length = ws.length) :
    granted (ws ++ ws') (rs ++ rs') = granted ws rs ++ granted ws' rs' := by
  rw [granted, List.map_append, List.map_append, List.zip_append (by simp [h])]
  rfl

theorem grants_pieces {t : Target} {cursor : Cursor} {ps : List Piece}
    (h : ps.length ≤ (t.convention.arguments.drop cursor.next).length) :
    Grants t cursor (ps.map fun q => { ty := q.ty })
      (((t.convention.arguments.drop cursor.next).take ps.length).map t.registers.root)
      { cursor with next := cursor.next + ps.length } := by
  refine ⟨?_, fun rest => by rw [roots?_pieces, if_pos h]⟩
  rw [List.length_map, List.length_map, List.length_take, Nat.min_eq_left h]

theorem bind_cons_eq_map (reg : RegId) (x : Option (List RegId)) :
    (do let rest ← x; return reg :: rest) = x.map ([reg] ++ ·) := by
  cases x <;> rfl

theorem grants_scalar {t : Target} {cursor : Cursor} {ty : LowType} {isFloat : Bool} {reg : RegId}
    (h : cursor.register? t isFloat = some reg) :
    Grants t cursor [⟨ty, isFloat, false⟩] [t.registers.root reg] (cursor.behind isFloat) := by
  refine ⟨rfl, fun rest => ?_⟩
  cases isFloat with
  | true =>
    have hreg : t.convention.floatArguments[cursor.nextFloat]? = some reg := h
    rw [List.singleton_append, roots?]
    simp only [Bool.false_eq_true, if_false, if_true, hreg]
    exact bind_cons_eq_map _ _
  | false =>
    have hreg : t.convention.arguments[cursor.next]? = some reg := h
    rw [List.singleton_append, roots?]
    simp only [Bool.false_eq_true, if_false, hreg]
    exact bind_cons_eq_map _ _

theorem grants_buffer {t : Target} {cursor : Cursor} {ty : LowType} :
    Grants t cursor [⟨ty, false, true⟩] [t.registers.root t.registers.returnBuffer] cursor := by
  refine ⟨rfl, fun rest => ?_⟩
  rw [List.singleton_append, roots?, if_pos rfl]
  exact bind_cons_eq_map _ _

/-- What one argument becomes. -/
def Scope.placeOne (c : Scope) (callee : String) (returnBuffer : Option Nat) (arg : Ir.Value)
    (index : Nat) (cursor : Cursor) : Lower (List Placed × Cursor) :=
  if returnBuffer == some index then do
    let placed ← c.placeReturnBuffer arg
    return ([placed], cursor)
  else if arg.ty.isAggregate then c.placeAggregate callee index arg cursor
  else do
    let (placed, cursor) ← c.placeScalar callee arg cursor
    return ([placed], cursor)

theorem placeArguments_cons (callee : String) (returnBuffer : Option Nat) (arg : Ir.Value)
    (index : Nat) (rest : List (Ir.Value × Nat)) (cursor : Cursor) :
    c.placeArguments callee returnBuffer ((arg, index) :: rest) cursor = do
      let (placed, cursor) ← c.placeOne callee returnBuffer arg index cursor
      let others ← c.placeArguments callee returnBuffer rest cursor
      return placed ++ others := by
  rw [Scope.placeArguments, Scope.placeOne]
  split
  · simp
  · split
    · rfl
    · simp

theorem exists_of_placeArguments_cons {callee : String} {returnBuffer : Option Nat} {arg : Ir.Value}
    {index : Nat} {rest : List (Ir.Value × Nat)} {cursor : Cursor} {placed : List Placed}
    (h : (c.placeArguments callee returnBuffer ((arg, index) :: rest) cursor).run s =
      .ok (placed, s')) :
    ∃ r others s₁, (c.placeOne callee returnBuffer arg index cursor).run s = .ok (r, s₁) ∧
      (c.placeArguments callee returnBuffer rest r.2).run s₁ = .ok (others, s') ∧
      placed = r.1 ++ others := by
  rw [placeArguments_cons] at h
  obtain ⟨r, s₁, hone, h⟩ := run_bind_eq_ok.mp h
  obtain ⟨others, s₂, hothers, h⟩ := run_bind_eq_ok.mp h
  cases h
  exact ⟨r, others, s₁, hone, hothers, rfl⟩

section One

variable (a : Arch) (hc : c.target = a.target) {callee : String} {returnBuffer : Option Nat}
  {index : Nat} {cursor : Cursor} {p : Ir.Parameter} {arg : Ir.Value} (hty : arg.ty = p.ty)
  (hbuffer : p.isReturnBuffer ↔ returnBuffer = some index) (hpass : s.CanPass c arg)
include hc hty hbuffer hpass

/-- One argument goes where a parameter in its place gets its registers. -/
theorem placeOne_grants {r : List Placed × Cursor}
    (h : (c.placeOne callee returnBuffer arg index cursor).run s = .ok (r, s')) :
    ∃ ws rs, wants? c.target p = some ws ∧ Grants c.target cursor ws rs r.2 ∧
      r.1.map (fun p => rootOf c.target p.dest) = granted ws rs := by
  rw [Scope.placeOne] at h
  rw [wants?]
  by_cases hp : p.isReturnBuffer
  · rw [if_pos (by simpa using hbuffer.mp hp)] at h
    rw [if_pos hp]
    obtain ⟨placed, s₁, hplaced, h⟩ := run_bind_eq_ok.mp h
    cases h
    refine ⟨_, _, rfl, grants_buffer, ?_⟩
    rw [List.map_singleton, placeReturnBuffer_dest hplaced, rootOf_physical a hc]
    rfl
  · rw [if_neg (by simpa using mt hbuffer.mpr hp)] at h
    rw [if_neg hp, ← hty]
    by_cases haggregate : arg.ty.isAggregate
    · rw [if_pos haggregate] at h
      obtain ⟨bytes, hsize, hfits, hle, hdest, hcursor⟩ := placeAggregate_dest hpass h
      simp only [if_pos haggregate, hsize, if_pos hfits]
      refine ⟨_, _, rfl, hcursor ▸ grants_pieces hle, ?_⟩
      have hroots := congrArg (List.map (rootOf c.target)) hdest
      rw [List.map_map, map_rootOf_pieceDests a hc hle] at hroots
      rw [granted, List.map_map]
      exact hroots
    · rw [if_neg haggregate] at h
      rw [if_neg haggregate]
      obtain ⟨r', s₁, hplaced, h⟩ := run_bind_eq_ok.mp h
      cases h
      obtain ⟨reg, hreg, hdest, hcursor⟩ := placeScalar_dest hplaced
      refine ⟨_, _, rfl, hcursor ▸ grants_scalar hreg, ?_⟩
      rw [List.map_singleton, hdest, rootOf_physical a hc]
      rfl

theorem succeeds_placeOne {ws rest : List Want} {rs : List RegId} (hws : wants? c.target p = some ws)
    (hrs : roots? c.target cursor.next cursor.nextFloat (ws ++ rest) = some rs) :
    Succeeds s (c.placeOne callee returnBuffer arg index cursor) (1 + ws.length) fun _ => True := by
  rw [wants?] at hws
  rw [Scope.placeOne]
  by_cases hp : p.isReturnBuffer
  · rw [if_pos (by simpa using hbuffer.mp hp)]
    rw [if_pos hp] at hws
    cases hws
    exact (succeeds_placeReturnBuffer hpass.readable).bind (n := 0) (Nat.le_refl 2)
      fun _ _ _ _ => .pure trivial 0
  · rw [if_neg (by simpa using mt hbuffer.mpr hp)]
    rw [if_neg hp, ← hty] at hws
    by_cases haggregate : arg.ty.isAggregate
    · rw [if_pos haggregate]
      rw [if_pos haggregate] at hws
      split at hws
      · next bytes hsize =>
        split at hws
        · next hfits =>
          cases hws
          rw [roots?_pieces] at hrs
          split at hrs
          · next hle =>
            rw [List.length_map]
            exact succeeds_placeAggregate a hc hpass haggregate hsize hfits hle
          · cases hrs
        · cases hws
      · cases hws
    · rw [if_neg haggregate]
      rw [if_neg haggregate] at hws
      cases hws
      obtain ⟨reg, hreg⟩ : ∃ reg, cursor.register? c.target arg.ty.isFloat = some reg := by
        rw [List.singleton_append, roots?] at hrs
        simp only [Bool.false_eq_true, if_false] at hrs
        rw [Cursor.register?, Target.Convention.argumentsOf]
        split at hrs
        · next hfloat =>
          obtain ⟨reg, hreg, -⟩ := Option.bind_eq_some_iff.mp hrs
          exact ⟨reg, by simpa [hfloat] using hreg⟩
        · next hfloat =>
          obtain ⟨reg, hreg, -⟩ := Option.bind_eq_some_iff.mp hrs
          exact ⟨reg, by simpa [hfloat] using hreg⟩
      exact (succeeds_placeScalar hpass.readable hreg).bind (n := 0) (Nat.le_refl 2)
        fun _ _ _ _ => .pure trivial 0

end One

theorem goes_placeOne {E : Instruction → Prop} {N : Note → Prop}
    (hE : ∀ i, IsInner i → IsRoutine i → i.isExit = false → E i)
    (callee : String) (returnBuffer : Option Nat) (arg : Ir.Value) (index : Nat) (cursor : Cursor) :
    Goes E N s (c.placeOne callee returnBuffer arg index cursor) fun _ => True := by
  rw [Scope.placeOne]
  split
  · exact (goes_placeReturnBuffer hE arg).bind fun _ _ _ _ => .pure trivial
  · split
    · exact goes_placeAggregate hE callee index arg cursor
    · exact (goes_placeScalar hE callee arg cursor).bind fun _ _ _ _ => .pure trivial

theorem sameValues_placeOne {callee : String} {returnBuffer : Option Nat} {arg : Ir.Value}
    {index : Nat} {cursor : Cursor} {r : List Placed × Cursor}
    (h : (c.placeOne callee returnBuffer arg index cursor).run s = .ok (r, s')) :
    SameValues s s' :=
  (goes_placeOne (fun _ _ _ _ => trivial) callee returnBuffer arg index cursor).sameValues h

section All

variable (a : Arch) (hc : c.target = a.target) {callee : String} {returnBuffer : Option Nat}
  {params : List Ir.Parameter} {args : List Ir.Value} {k : Nat} {cursor : Cursor}
  (hstands : Stands returnBuffer k params args) (hpass : ∀ arg ∈ args, s.CanPass c arg)
include hc hstands hpass

theorem roots?_of_placeArguments {placed : List Placed}
    (h : (c.placeArguments callee returnBuffer (args.zipIdx k) cursor).run s = .ok (placed, s')) :
    ∃ ws rs, wantsOf? c.target params = some ws ∧
      roots? c.target cursor.next cursor.nextFloat ws = some rs ∧
      placed.map (fun p => rootOf c.target p.dest) = granted ws rs := by
  induction params generalizing s args k cursor placed with
  | nil =>
    have hnil : args = [] := by simpa using hstands.types
    subst hnil
    cases h
    exact ⟨[], [], rfl, rfl, rfl⟩
  | cons p params ih =>
    obtain ⟨arg, args, rfl, hty, hbuffer, hstands⟩ := hstands.cons
    obtain ⟨hfirst, hpass⟩ := List.forall_mem_cons.mp hpass
    rw [List.zipIdx_cons] at h
    obtain ⟨r, others, s₁, hone, hothers, rfl⟩ := exists_of_placeArguments_cons h
    have hsame := sameValues_placeOne hone
    obtain ⟨ws, rs, hws, hgrants, hroots⟩ := placeOne_grants a hc hty hbuffer hfirst hone
    obtain ⟨ws', rs', hws', hrs', hroots'⟩ :=
      ih hstands (fun arg harg => (hpass arg harg).of_sameValues hsame) hothers
    refine ⟨_, rs ++ rs', wantsOf?_cons.mpr ⟨ws, ws', hws, hws', rfl⟩, ?_, ?_⟩
    · rw [hgrants.roots, hrs']
      rfl
    · rw [List.map_append, hroots, hroots', granted_append hgrants.length_eq]

theorem succeeds_placeArguments {ws : List Want} {rs : List RegId}
    (hws : wantsOf? c.target params = some ws)
    (hrs : roots? c.target cursor.next cursor.nextFloat ws = some rs) :
    Succeeds s (c.placeArguments callee returnBuffer (args.zipIdx k) cursor)
      (params.length + ws.length) fun _ => True := by
  induction params generalizing s args k cursor ws rs with
  | nil =>
    have hnil : args = [] := by simpa using hstands.types
    subst hnil
    exact .pure trivial _
  | cons p params ih =>
    obtain ⟨arg, args, rfl, hty, hbuffer, hstands⟩ := hstands.cons
    obtain ⟨hfirst, hpass⟩ := List.forall_mem_cons.mp hpass
    obtain ⟨first, others, hfirst', hothers, rfl⟩ := wantsOf?_cons.mp hws
    rw [List.zipIdx_cons, placeArguments_cons]
    refine (succeeds_placeOne a hc hty hbuffer hfirst hfirst' hrs).bind
      (n := params.length + others.length) ?_ fun r s₁ hone _ => ?_
    · simp only [List.length_cons, List.length_append]
      omega
    · have hsame := sameValues_placeOne hone
      obtain ⟨ws', rs', hws', hgrants, -⟩ := placeOne_grants a hc hty hbuffer hfirst hone
      cases hfirst'.symm.trans hws'
      rw [hgrants.roots] at hrs
      obtain ⟨rest, hrest, -⟩ := Option.map_eq_some_iff.mp hrs
      exact (ih hstands (fun arg harg => (hpass arg harg).of_sameValues hsame) hothers hrest).bind
        (n := 0) (Nat.le_refl _) fun _ _ _ _ => .pure trivial 0

end All

/-! ## Code of calls -/

/-- An argument that is an address is that of something that has one. -/
def Placed.IsFound (s : State) (p : Placed) : Prop :=
  ∀ value, p.argument = .address value → s.isAddressable value

theorem SameValues.isAddressable (h : SameValues s s') (value : Ir.Value) :
    s'.isAddressable value = s.isAddressable value := by
  rw [State.isAddressable, State.isAddressable, h.frameObject?]

theorem mapM_stagePart_isFound {parts : List (Operand × Operand)} {placed : List Placed}
    (h : (parts.mapM stagePart).run s = .ok (placed, s')) (s₀ : State) :
    ∀ p ∈ placed, p.IsFound s₀ := by
  intro p hp
  obtain ⟨part, -, source, rfl⟩ := exists_mem_of_forall₂ (forall₂_mapM_stagePart h).flip hp
  nofun

theorem placeOne_isFound {callee : String} {returnBuffer : Option Nat} {arg : Ir.Value}
    {index : Nat} {cursor : Cursor} {r : List Placed × Cursor}
    (h : (c.placeOne callee returnBuffer arg index cursor).run s = .ok (r, s')) :
    ∀ p ∈ r.1, p.IsFound s := by
  rw [Scope.placeOne] at h
  split at h
  · obtain ⟨placed, s₁, hplaced, h⟩ := run_bind_eq_ok.mp h
    cases h
    rw [Scope.placeReturnBuffer, run_get_bind] at hplaced
    rw [List.forall_mem_singleton]
    split at hplaced
    · next haddress =>
      cases hplaced
      intro value hvalue
      cases hvalue
      exact haddress
    · obtain ⟨source, s₂, -, hplaced⟩ := run_bind_eq_ok.mp hplaced
      obtain ⟨staged, s₃, -, hplaced⟩ := run_bind_eq_ok.mp hplaced
      cases hplaced
      nofun
  · split at h
    · obtain ⟨_, parts, s₁, -, -, -, hplaced, -⟩ := exists_of_run_placeAggregate h
      exact mapM_stagePart_isFound hplaced s
    · obtain ⟨r', s₁, hplaced, h⟩ := run_bind_eq_ok.mp h
      cases h
      dsimp only [Scope.placeScalar] at hplaced
      obtain ⟨reg, s₂, hcheck, hplaced⟩ := run_bind_eq_ok.mp hplaced
      obtain ⟨-, hs₂⟩ := run_check_eq_ok.mp hcheck
      rw [run_get_bind] at hplaced
      rw [List.forall_mem_singleton]
      split at hplaced
      · next haddress =>
        cases hplaced
        intro value hvalue
        cases hvalue
        rw [Bool.and_eq_true] at haddress
        exact hs₂ ▸ haddress.2
      · obtain ⟨source, s₃, -, hplaced⟩ := run_bind_eq_ok.mp hplaced
        obtain ⟨staged, s₄, -, hplaced⟩ := run_bind_eq_ok.mp hplaced
        cases hplaced
        nofun

theorem placeArguments_isFound {callee : String} {returnBuffer : Option Nat}
    {args : List (Ir.Value × Nat)} {cursor : Cursor} {placed : List Placed}
    (h : (c.placeArguments callee returnBuffer args cursor).run s = .ok (placed, s')) :
    ∀ p ∈ placed, p.IsFound s' := by
  induction args generalizing s cursor placed with
  | nil =>
    cases h
    simp
  | cons arg args ih =>
    obtain ⟨arg, index⟩ := arg
    obtain ⟨r, others, s₁, hone, hothers, rfl⟩ := exists_of_placeArguments_cons h
    have hsame := sameValues_placeOne hone
    have hsame' := (goes_placeArguments (fun _ _ _ _ => trivial)
      callee returnBuffer args r.2).sameValues hothers
    refine List.forall_mem_append.mpr ⟨fun p hp value hvalue => ?_, ih hothers⟩
    rw [(hsame.trans hsame').isAddressable]
    exact placeOne_isFound hone p hp value hvalue

/-- The instruction that writes an argument register. -/
def Scope.moveOf (c : Scope) (s : State) (p : Placed) : Instruction :=
  match p.argument with
  | .copy source => intoInstruction p.dest source
  | .address value =>
    match s.frameObject? value, value with
    | some slot, _ => .generic .stackAddress [p.dest, .stack slot 0 c.target.pointerType]
    | none, .global name _ => .generic .globalAddress [p.dest, .global name c.target.pointerType]
    | none, _ => .generic .mov [p.dest]

theorem moveOf_append (p : Placed) (code : List Instruction) :
    c.moveOf (s.append code) p = c.moveOf s p := by
  simp only [Scope.moveOf, State.frameObject?_append]

theorem run_emitPlaced {p : Placed} (h : p.IsFound s) :
    (c.emitPlaced p).run s = .ok ((), s.append [c.moveOf s p]) := by
  rw [Scope.emitPlaced, Scope.moveOf]
  cases hargument : p.argument with
  | copy source => exact run_emitInto _ _
  | address value =>
    dsimp only
    have haddress := h value hargument
    rw [State.isAddressable] at haddress
    rw [Scope.emitAddress, run_get_bind]
    cases hframe : s.frameObject? value with
    | some slot => exact run_emit _ _
    | none =>
      cases value with
      | global name ty => exact run_emit _ _
      | _ => simp [hframe, Ir.Value.isGlobal] at haddress

theorem run_forM_emitPlaced {placed : List Placed} (h : ∀ p ∈ placed, p.IsFound s) :
    (placed.forM c.emitPlaced).run s = .ok ((), s.append (placed.map (c.moveOf s))) := by
  induction placed generalizing s with
  | nil =>
    rw [List.map_nil, State.append_nil]
    rfl
  | cons p placed ih =>
    obtain ⟨hp, hplaced⟩ := List.forall_mem_cons.mp h
    have hfound : ∀ q ∈ placed, q.IsFound (s.append [c.moveOf s p]) := by
      intro q hq value hvalue
      rw [State.isAddressable, State.frameObject?_append]
      exact hplaced q hq value hvalue
    have hmoves : c.moveOf (s.append [c.moveOf s p]) = c.moveOf s :=
      funext fun q => moveOf_append q _
    rw [List.forM, StateT.run_bind, run_emitPlaced hp, ok_bind, ih hfound, State.append_append,
      hmoves]
    rfl

theorem exists_moveOf_eq (s : State) (p : Placed) :
    ∃ op ∈ [GenericOp.load, .mov, .movf, .stackAddress, .globalAddress], ∃ rest,
      c.moveOf s p = .generic op (p.dest :: rest) := by
  rw [Scope.moveOf]
  split
  · obtain ⟨op, hop, hmove⟩ := exists_intoInstruction_eq p.dest _
    exact ⟨op, List.mem_append_left [GenericOp.stackAddress, .globalAddress] hop, _, hmove⟩
  · split <;> exact ⟨_, by simp, _, rfl⟩

theorem def?_moveOf (s : State) (p : Placed) : (c.moveOf s p).def? = some p.dest := by
  obtain ⟨op, hop, rest, hmove⟩ := exists_moveOf_eq (c := c) s p
  rw [hmove]
  simp only [List.mem_cons, List.not_mem_nil, or_false] at hop
  rcases hop with rfl | rfl | rfl | rfl | rfl <;> rfl

theorem flags_moveOf (s : State) (p : Placed) :
    (c.moveOf s p).isReturn = false ∧ (c.moveOf s p).isCall = false := by
  obtain ⟨op, hop, rest, hmove⟩ := exists_moveOf_eq (c := c) s p
  rw [hmove]
  simp only [List.mem_cons, List.not_mem_nil, or_false] at hop
  rcases hop with rfl | rfl | rfl | rfl | rfl <;> exact ⟨rfl, rfl⟩

/-- The state of a function that calls. -/
def State.calling (s : State) : State :=
  { s with function := { s.function with isCaller := true } }

/-- A call without its result: code that reads arguments, a write of each argument register, and the
call. -/
theorem run_lowerCall_none {callee : String} {args : List Ir.Value} {ty : Ir.Ty}
    {returnBuffer : Option Nat} :
    (c.lowerCall none callee args ty returnBuffer).run s = .ok ((), s') ↔
      ∃ placed s₁, (c.placeArguments callee returnBuffer args.zipIdx {}).run s.calling =
          .ok (placed, s₁) ∧
        s' = s₁.append (placed.map (c.moveOf s₁) ++ [.generic .call [.function callee]]) := by
  have hrun : (c.lowerCall none callee args ty returnBuffer).run s = (do
      let placed ← c.placeArguments callee returnBuffer args.zipIdx {}
      placed.forM c.emitPlaced
      emit .call [.function callee]
      return : Lower Unit).run s.calling := rfl
  rw [hrun, run_bind_eq_ok]
  constructor
  · rintro ⟨placed, s₁, hplaced, h⟩
    rw [StateT.run_bind, run_forM_emitPlaced (placeArguments_isFound hplaced), ok_bind,
      StateT.run_bind, run_emit, State.append_append] at h
    cases h
    exact ⟨placed, s₁, hplaced, rfl⟩
  · rintro ⟨placed, s₁, hplaced, rfl⟩
    refine ⟨placed, s₁, hplaced, ?_⟩
    rw [StateT.run_bind, run_forM_emitPlaced (placeArguments_isFound hplaced), ok_bind,
      StateT.run_bind, run_emit, State.append_append]
    rfl

end Retarget.Lowering
