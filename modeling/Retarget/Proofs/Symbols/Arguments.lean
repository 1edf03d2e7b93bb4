import Retarget.Proofs.Convention.SetUps

/-!
# Registers of arguments

The calling convention assigns registers to the arguments of a call one after another: the address
of the caller's buffer has a register of its own, an aggregate gets as many of the next registers as
it has pieces, and a scalar gets the next register of its kind (`Scope.Assigns`).

Where lowering places the arguments of a call, each assigned register is written, and a global is
not read but its address is taken: in the argument register itself, or in a new register that is
copied there (`serves_placeArguments`).
-/

namespace Retarget.Lowering

open Machine

variable {c : Scope} {f : Ir.Function} {s s' s₁ : State} {returnBuffer : Option Nat}
  {cursor : Cursor}

/-- The type that an aggregate is passed at: its own, or where the function loads a temporary, the
type that is loaded. -/
def PassedAt (f : Ir.Function) (arg : Ir.Value) (ty : Ir.Ty) : Prop :=
  ty = arg.ty ∨ ∃ id ty', arg = .temp id ty' ∧ LoadsAt f id ty

/-- The registers of an aggregate: as many of the next ones as it has pieces, or all that are left. -/
def Scope.IsGroup (c : Scope) (f : Ir.Function) (arg : Ir.Value) (next : Nat)
    (group : List RegId) : Prop :=
  ∃ ty bytes, PassedAt f arg ty ∧ ty.size c.target.pointerBytes = .ok bytes ∧
    group = (c.target.convention.arguments.drop next).take (pieces c.target.pointerBytes bytes).length

/-- The registers that arguments are assigned in a function, from a cursor on.  An argument stands
beside its position in the call. -/
inductive Scope.Assigns (c : Scope) (f : Ir.Function) (returnBuffer : Option Nat) :
    Cursor → List (Ir.Value × Nat) → List (List RegId) → Prop
  | nil (cursor : Cursor) : c.Assigns f returnBuffer cursor [] []
  /-- The caller's buffer. -/
  | buffer {cursor : Cursor} {arg : Ir.Value} {index : Nat} {args : List (Ir.Value × Nat)}
      {registers : List (List RegId)} (hbuffer : returnBuffer = some index)
      (hrest : c.Assigns f returnBuffer cursor args registers) :
      c.Assigns f returnBuffer cursor ((arg, index) :: args)
        ([c.target.registers.returnBuffer] :: registers)
  | aggregate {cursor : Cursor} {arg : Ir.Value} {index : Nat} {args : List (Ir.Value × Nat)}
      {group : List RegId} {registers : List (List RegId)} (hbuffer : returnBuffer ≠ some index)
      (haggregate : arg.ty.isAggregate)
      (hgroup : c.IsGroup f arg cursor.next group)
      (hrest : c.Assigns f returnBuffer { cursor with next := cursor.next + group.length } args
        registers) :
      c.Assigns f returnBuffer cursor ((arg, index) :: args) (group :: registers)
  | scalar {cursor : Cursor} {arg : Ir.Value} {index : Nat} {args : List (Ir.Value × Nat)}
      {reg : RegId} {registers : List (List RegId)} (hbuffer : returnBuffer ≠ some index)
      (hscalar : arg.ty.isAggregate = false)
      (hreg : cursor.register? c.target arg.ty.isFloat = some reg)
      (hrest : c.Assigns f returnBuffer (cursor.behind arg.ty.isFloat) args registers) :
      c.Assigns f returnBuffer cursor ((arg, index) :: args) ([reg] :: registers)

/-- The type at which an argument register gets a value of some type: a buffer is passed by its
address. -/
def Scope.passedAs (c : Scope) (isBuffer : Bool) (ty : Ir.Ty) : LowType :=
  if isBuffer then c.target.pointerType else c.lowType ty

/-- Taking the address of a symbol into a new register. -/
def Scope.fetchOf (c : Scope) (id : RegId) (name : String) : Instruction :=
  .generic .globalAddress
    [.virtualReg id c.target.pointerType, .global name c.target.pointerType]

/-- An argument register gets the address of a symbol: at once, if it is one for addresses, or from a
new register into which the code takes the address. -/
inductive Placed.Takes (c : Scope) (code : List Instruction) (name : String) (reg : RegId)
    (p : Placed) : Prop
  | address {ty : Ir.Ty} (hargument : p.argument = .address (.global name ty))
      (hdest : p.dest = c.physical reg c.target.pointerType)
      (hreg : reg ∈ c.target.convention.arguments ++ [c.target.registers.returnBuffer])
  | copy {id : RegId} (hargument : p.argument = .copy (.virtualReg id c.target.pointerType))
      (hfetch : c.fetchOf id name ∈ code) (hreg : reg ∈ c.target.passing)

theorem Placed.Takes.mono {code code' : List Instruction} {name : String} {reg : RegId} {p : Placed}
    (h : p.Takes c code name reg) (hsub : code ⊆ code') : p.Takes c code' name reg := by
  cases h with
  | address hargument hdest hreg => exact .address hargument hdest hreg
  | copy hargument hfetch hreg => exact .copy hargument (hsub hfetch) hreg

/-! ## One argument -/

/-- What lives in registers is a temporary with the pieces of a type that the function loads it at. -/
def State.Homed (c : Scope) (f : Ir.Function) (s : State) : Prop :=
  ∀ arg home, s.homeRegisters? arg = some home → ∃ id ty loaded, arg = .temp id ty ∧
    LoadsAt f id loaded ∧ NotesLoad c.target.pointerBytes loaded (.registers home)

theorem State.Homed.of_sameValues (h : s.Homed c f) (hs : SameValues s s') : s'.Homed c f :=
  fun arg home hhome => h arg home (hs.homeRegisters? arg ▸ hhome)

theorem length_placeAggregate (hs : s.Homed c f) {callee : String} {index : Nat} {arg : Ir.Value}
    {r : List Placed × Cursor}
    (h : (c.placeAggregate callee index arg cursor).run s = .ok (r, s')) :
    ∃ ty bytes, PassedAt f arg ty ∧ ty.size c.target.pointerBytes = .ok bytes ∧
      r.1.length = min (pieces c.target.pointerBytes bytes).length
        (c.target.convention.arguments.drop cursor.next).length := by
  obtain ⟨_, ps, s₁, -, -, hps, hplaced, -⟩ := exists_of_run_placeAggregate h
  have hlength : r.1.length = ps.length := by
    simpa using congrArg List.length (mapM_stagePart_dest hplaced)
  rw [hlength]
  obtain ⟨bytes, hsize, -, ⟨home, hhome, -, rfl⟩ | ⟨-, location, -, rfl⟩⟩ :=
    run_aggregateParts_eq_ok.mp hps
  · obtain ⟨id, ty, loaded, rfl, hload, bytes, hsize, hpieces⟩ := hs arg home hhome
    refine ⟨loaded, bytes, .inr ⟨id, ty, rfl, hload⟩, hsize, ?_⟩
    rw [List.length_map, List.length_zip, ← hpieces, List.length_map]
  · exact ⟨_, bytes, .inl rfl, hsize, by rw [List.length_map, List.length_zip]⟩

theorem isAddressable_global (s : State) (name : String) (ty : Ir.Ty) :
    s.isAddressable (.global name ty) := by
  simp [State.isAddressable, Ir.Value.isGlobal]

theorem run_operand_global {name : String} {ty : Ir.Ty} {o : Operand}
    (h : (c.operand (.global name ty)).run s = .ok (o, s')) :
    o = .virtualReg s.next c.target.pointerType ∧
      s' = s.numbered.append [c.fetchOf s.next name] := by
  obtain ⟨dest, s₁, hdest, h⟩ := run_bind_eq_ok.mp h
  obtain ⟨rfl, rfl⟩ := run_freshReg_eq_ok hdest
  obtain ⟨_, s₂, haddress, h⟩ := run_bind_eq_ok.mp h
  cases h
  have hnone : s.numbered.frameObject? (.global name ty) = none := rfl
  rw [Scope.emitAddress, run_get_bind, hnone, run_emit] at haddress
  cases haddress
  exact ⟨rfl, rfl⟩

theorem run_stage_of_not_mem {id : RegId} {ty ty' : LowType} {o : Operand}
    (hid : id ∉ s.function.paramIds) (h : (stage (.virtualReg id ty) ty').run s = .ok (o, s')) :
    o = .virtualReg id ty ∧ s' = s := by
  have hreads : s.readsParameter (.virtualReg id ty) = false := by
    rw [State.readsParameter, Operand.unallocated?, Operand.virtualReg, Option.any_some,
      List.any_eq_false]
    intro p hp heq
    exact hid (eq_of_beq heq ▸ List.mem_map_of_mem hp)
  rw [stage, run_get_bind, hreads] at h
  cases h
  exact ⟨rfl, rfl⟩

/-- The address of a global is taken into its argument register, or into a new register first. -/
theorem takes_placeScalar (hs : s.Incoming) {callee name : String} {ty : Ir.Ty} {reg : RegId}
    {r : Placed × Cursor} (hreg : cursor.register? c.target ty.isFloat = some reg)
    (hdest : r.1.dest = c.physical reg (c.lowType ty))
    (h : (c.placeScalar callee (.global name ty) cursor).run s = .ok (r, s')) :
    ∃ code, s'.code.toList = s.code.toList ++ code ∧ r.1.Takes c code name reg := by
  dsimp only [Scope.placeScalar] at h
  obtain ⟨root, s₁, hcheck, hrun⟩ := run_bind_eq_ok.mp h
  obtain ⟨-, rfl⟩ := run_check_eq_ok.mp hcheck
  rw [run_get_bind, isAddressable_global, Bool.and_true] at hrun
  split at hrun
  · next hpointer =>
    cases hrun
    have hgeneral : ty.isFloat = false := by cases ty <;> first | rfl | cases hpointer
    rw [hgeneral] at hreg
    exact ⟨[], (List.append_nil _).symm,
      .address rfl (hdest.trans (congrArg _ (lowType_of_isPointer hpointer)))
        (List.mem_append_left _ (List.mem_of_getElem? hreg))⟩
  · obtain ⟨source, s₂, hoperand, hrun⟩ := run_bind_eq_ok.mp hrun
    obtain ⟨staged, s₃, hstage, hrun⟩ := run_bind_eq_ok.mp hrun
    cases hrun
    obtain ⟨rfl, rfl⟩ := run_operand_global hoperand
    have hnew : s₁.next ∉ (s₁.numbered.append [c.fetchOf s₁.next name]).function.paramIds :=
      fun hmem => Nat.lt_irrefl _ (hs.used _ hmem)
    obtain ⟨rfl, rfl⟩ := run_stage_of_not_mem hnew hstage
    exact ⟨_, State.code_append _ _,
      .copy rfl List.mem_cons_self (mem_passing_argumentsOf _ (List.mem_of_getElem? hreg))⟩

theorem takes_placeReturnBuffer {name : String} {ty : Ir.Ty} {p : Placed}
    (h : (c.placeReturnBuffer (.global name ty)).run s = .ok (p, s')) :
    s' = s ∧ p.Takes c [] name c.target.registers.returnBuffer := by
  rw [Scope.placeReturnBuffer, run_get_bind, if_pos (isAddressable_global s name ty)] at h
  cases h
  exact ⟨rfl, .address rfl rfl (by simp)⟩

/-! ## All arguments -/

/-- What placing arguments emits and chooses: the registers of the convention, each of which is
written, and a way for the address of each global. -/
structure Scope.Serves (c : Scope) (f : Ir.Function) (returnBuffer : Option Nat) (cursor : Cursor)
    (args : List (Ir.Value × Nat)) (code : List Instruction) (placed : List Placed)
    (registers : List (List RegId)) : Prop where
  assigns : c.Assigns f returnBuffer cursor args registers
  written : ∀ group ∈ registers, ∀ reg ∈ group, ∃ p ∈ placed,
    p.root? c.target = some (c.target.registers.root reg)
  takes : ∀ (n index : Nat) name ty, args[n]? = some (.global name ty, index) →
    ty.isAggregate = false → ∃ reg, registers[n]? = some [reg] ∧ ∃ p ∈ placed,
      p.dest = c.physical reg (c.passedAs (returnBuffer == some index) ty) ∧ p.Takes c code name reg

section Serves

variable {args : List (Ir.Value × Nat)} {code code' : List Instruction} {placed group : List Placed}
  {registers : List (List RegId)} {regs : List RegId} {arg : Ir.Value} {index : Nat}

theorem Scope.Serves.cons {cursor' : Cursor}
    (h : c.Serves f returnBuffer cursor' args code' placed registers)
    (hassigns : c.Assigns f returnBuffer cursor ((arg, index) :: args) (regs :: registers))
    (hgroup : group.map (Placed.root? c.target) = (regs.map c.target.registers.root).map some)
    (htakes : ∀ name ty, arg = .global name ty → ty.isAggregate = false → ∃ reg p,
      regs = [reg] ∧ group = [p] ∧
      p.dest = c.physical reg (c.passedAs (returnBuffer == some index) ty) ∧
      p.Takes c code name reg) :
    c.Serves f returnBuffer cursor ((arg, index) :: args) (code ++ code') (group ++ placed)
      (regs :: registers) := by
  refine ⟨hassigns, fun regs' hregs reg hreg => ?_, fun n index' name ty hn hscalar => ?_⟩
  · rcases List.mem_cons.mp hregs with rfl | hregs
    · have hroot : some (c.target.registers.root reg) ∈ group.map (Placed.root? c.target) :=
        hgroup ▸ List.mem_map_of_mem (List.mem_map_of_mem hreg)
      obtain ⟨p, hp, hroot⟩ := List.mem_map.mp hroot
      exact ⟨p, List.mem_append_left _ hp, hroot⟩
    · obtain ⟨p, hp, hroot⟩ := h.written regs' hregs reg hreg
      exact ⟨p, List.mem_append_right _ hp, hroot⟩
  · cases n with
    | zero =>
      cases hn
      obtain ⟨reg, p, rfl, rfl, hdest, hp⟩ := htakes name ty rfl hscalar
      exact ⟨reg, rfl, p, by simp, hdest, hp.mono (List.subset_append_left _ _)⟩
    | succ n =>
      obtain ⟨reg, hreg, p, hp, hdest, htake⟩ := h.takes n index' name ty hn hscalar
      exact ⟨reg, hreg, p, List.mem_append_right _ hp, hdest,
        htake.mono (List.subset_append_right _ _)⟩

variable (a : Arch) (hc : c.target = a.target)
include hc

theorem isGroup_placeAggregate (hs : s.Homed c f) {callee : String} {r : List Placed × Cursor}
    (h : (c.placeAggregate callee index arg cursor).run s = .ok (r, s')) :
    ∃ group, c.IsGroup f arg cursor.next group ∧
      r.1.map (Placed.root? c.target) = (group.map c.target.registers.root).map some ∧
      r.2 = { cursor with next := cursor.next + group.length } := by
  obtain ⟨hroots, hcursor⟩ := roots_placeAggregate a hc h
  obtain ⟨ty, bytes, hpassed, hsize, hlength⟩ := length_placeAggregate hs h
  have htake : ∀ l : List RegId, l.take (min (pieces c.target.pointerBytes bytes).length l.length) =
      l.take (pieces c.target.pointerBytes bytes).length := fun l => List.take_eq_take_min.symm
  refine ⟨_, ⟨ty, bytes, hpassed, hsize, rfl⟩, ?_, ?_⟩
  · rw [hroots, hlength, htake]
  · rw [hcursor, hlength, List.length_take]

/-- **Every argument goes to the registers that it is assigned**, and the address of a global is
taken. -/
theorem serves_placeArguments (hs : s.Incoming) (hhomed : s.Homed c f) {callee : String}
    (h : (c.placeArguments callee returnBuffer args cursor).run s = .ok (placed, s')) :
    ∃ code registers, s'.code.toList = s.code.toList ++ code ∧
      c.Serves f returnBuffer cursor args code placed registers := by
  induction args generalizing s cursor placed with
  | nil =>
    cases h
    exact ⟨[], [], (List.append_nil _).symm, .nil _, by simp, by simp⟩
  | cons entry args ih =>
    obtain ⟨arg, index⟩ := entry
    obtain ⟨r, others, s₁, hone, hothers, rfl⟩ := exists_of_placeArguments_cons h
    obtain ⟨fetched, hfetches, -⟩ := delivers_placeOne hs hone
    obtain ⟨fetchCode, hfetchCode, -⟩ := hfetches.code
    obtain ⟨code', registers, hcode', hserves⟩ :=
      ih (hfetches.stillIncoming hs) (hhomed.of_sameValues hfetches.same) hothers
    have hcode : s'.code.toList = s.code.toList ++ (fetchCode ++ code') := by
      rw [hcode', hfetchCode, List.append_assoc]
    have hfetched : ∀ code, s₁.code.toList = s.code.toList ++ code → code = fetchCode :=
      fun code h => List.append_cancel_left (h.symm.trans hfetchCode)
    rw [Scope.placeOne] at hone
    cases hbuffer : returnBuffer == some index with
    | true =>
      rw [hbuffer, if_pos rfl] at hone
      obtain ⟨p, s₂, hplaced, hone⟩ := run_bind_eq_ok.mp hone
      cases hone
      have hdest := placeReturnBuffer_dest hplaced
      refine ⟨_, [c.target.registers.returnBuffer] :: registers, hcode,
        hserves.cons (.buffer (eq_of_beq hbuffer) hserves.assigns) ?_ fun name ty harg _ => ?_⟩
      · rw [List.map_singleton, root?_of_dest a hc hdest]
        rfl
      · subst harg
        obtain ⟨rfl, htakes⟩ := takes_placeReturnBuffer hplaced
        rw [hbuffer]
        exact ⟨_, p, rfl, rfl, hdest, htakes.mono (List.nil_subset _)⟩
    | false =>
      rw [hbuffer, if_neg Bool.false_ne_true] at hone
      have hne : returnBuffer ≠ some index := by simpa using hbuffer
      cases haggregate : arg.ty.isAggregate with
      | true =>
        rw [haggregate, if_pos rfl] at hone
        obtain ⟨group, hgroup, hroots, hcursor⟩ := isGroup_placeAggregate a hc hhomed hone
        rw [hcursor] at hserves
        refine ⟨_, group :: registers, hcode,
          hserves.cons (.aggregate hne haggregate hgroup hserves.assigns) hroots
          fun name ty harg hscalar => ?_⟩
        subst harg
        cases hscalar.symm.trans haggregate
      | false =>
        rw [haggregate, if_neg Bool.false_ne_true] at hone
        obtain ⟨r', s₂, hplaced, hone⟩ := run_bind_eq_ok.mp hone
        cases hone
        obtain ⟨reg, hreg, hdest, hcursor⟩ := placeScalar_dest hplaced
        rw [hcursor] at hserves
        refine ⟨_, [reg] :: registers, hcode,
          hserves.cons (.scalar hne haggregate hreg hserves.assigns) ?_ fun name ty harg _ => ?_⟩
        · rw [List.map_singleton, root?_of_dest a hc hdest]
          rfl
        · subst harg
          obtain ⟨code, hadded, htakes⟩ := takes_placeScalar hs hreg hdest hplaced
          rw [hfetched code hadded] at htakes
          rw [hbuffer]
          exact ⟨reg, r'.1, rfl, rfl, hdest, htakes⟩

end Serves

end Retarget.Lowering
