import Retarget.Proofs.Encoding.Room
import Retarget.Proofs.Symbols.Compiled

/-!
# Addresses of globals as arguments

A global that is an argument stands for its address, but has the type of the object.  So its address,
which takes the width of pointers, is moved to the argument register at the width of the object: all
of it arrives exactly if that is the width of pointers at least (`Lowering.exists_arrivals`).  On
RV32 no register is narrower than an address.  On AArch64 the addresses of objects of at most 32 bits
are cut, unless the argument is the caller's buffer (`Options.addresses_arrive_iff`, for code that is
compiled without the optimizer: what the optimizer renames in front of a call is the subject of
`Lowering.staged_optimized_iff`).
-/

namespace Retarget

open Machine Target

variable {a : Arch} {f f' : Function} {assigned : List (RegId × RegId)} {i : Instruction}
  {fill : Fill} {id reg : RegId}

namespace Machine

theorem Instruction.Fills.mentions (h : i.Fills fill) {w : RegId} (hdest : fill.dest = .virtualReg w)
    (hid : id ∈ i.ids) : fill.Mentions id := by
  obtain ⟨hop, hoperands, hd, hs⟩ := h
  obtain ⟨o, ho, hid⟩ := List.mem_filterMap.mp hid
  rw [hoperands, List.mem_cons, List.mem_singleton] at ho
  rcases ho with rfl | rfl
  · rw [Operand.unallocated?, show o.kind = .virtualReg w from hdest] at hid
    cases hid
    exact .inl hdest
  · right
    obtain ⟨kind, ty, regClass⟩ := o
    cases hs with
    | mov h | movf h | load h => cases kind <;> cases h <;> exact hid
    | stackAddress h | globalAddress h =>
      cases h
      cases hid

theorem Instruction.Plain.exists_sets {next : Nat} (h : i.Plain a.target next) (hi : i.Fills fill) :
    ∃ d, i.Sets d ∧ d.kind = fill.dest := by
  obtain ⟨op, hcode, hflags, -⟩ := h.form
  obtain ⟨hop, hoperands, hd, hs⟩ := id hi
  refine ⟨_, ⟨⟨_, hi⟩, ?_⟩, rfl⟩
  rw [Instruction.generic?, hcode] at hop
  cases hop
  rw [Instruction.def?, Instruction.hasDef, hoperands, Instruction.isEffect, Instruction.isStore,
    Instruction.isReturn, Instruction.isJump, Instruction.isCall, hflags]
  cases hs <;> rfl

namespace Function.SetUp

variable {earlier later fetches moves front rest ps qs : List Instruction}
  {fetched moved : List Fill} {d : Operand} {move : Instruction}

theorem forall₂_sets (hs : f.SetUp a earlier (fetches ++ moves) later fetched moved)
    (hplain : f.All (·.Plain a.target f.nextId)) (hlength : moves.length = moved.length) :
    List.Forall₂ (fun i e => i.Fills e ∧ ∃ d, i.Sets d ∧ d.kind = e.dest) fetches fetched ∧
      List.Forall₂ (fun i e => i.Fills e ∧ ∃ d, i.Sets d ∧ d.kind = e.dest) moves moved := by
  have hall : List.Forall₂ (fun i e => i.Fills e ∧ ∃ d, i.Sets d ∧ d.kind = e.dest)
      (fetches ++ moves) (fetched ++ moved) := by
    refine (forall₂_imp_mem hs.fills.flip fun e i hi h => ⟨h, ?_⟩).flip
    have hin : i ∈ f.instructions := by
      rw [hs.split]
      exact List.mem_append_left _ (List.mem_append_right _ hi)
    exact (hplain i hin).exists_sets h
  obtain ⟨xs, ys, hsplit, hxs, hys⟩ := exists_append_of_forall₂_append hall
  obtain ⟨rfl, rfl⟩ := List.append_inj' hsplit (hlength.trans hys.length_eq.symm)
  exact ⟨hxs, hys⟩

theorem sets_behind (hs : f.SetUp a earlier (fetches ++ moves) later fetched moved)
    (hmoves : List.Forall₂ (fun i e => i.Fills e ∧ ∃ d, i.Sets d ∧ d.kind = e.dest)
      (ps ++ move :: qs) moved)
    (hmove : move.def? = some d) :
    ∀ i ∈ qs, ∃ d', i.Sets d' ∧ ∀ P : Placement a.target, P.root d'.kind ≠ P.root d.kind := by
  obtain ⟨before, e, after, rfl, -, ⟨-, d₀, hd₀, hdest⟩, hqs⟩ :=
    exists_cons_of_forall₂_cons hmoves.flip
  cases hmove.symm.trans hd₀.defines
  intro i hi
  obtain ⟨e', he', -, d', hd', hdest'⟩ := exists_mem_of_forall₂ hqs.flip hi
  have hroots := (List.pairwise_cons.mp (List.pairwise_append.mp hs.roots).2.1).1 e' he'
  refine ⟨d', hd', fun P heq => hroots P ?_⟩
  rw [← hdest, ← hdest']
  exact heq.symm

theorem sets_moves (hs : f.SetUp a earlier (fetches ++ moves) later fetched moved)
    (hmoves : List.Forall₂ (fun i e => i.Fills e ∧ ∃ d, i.Sets d ∧ d.kind = e.dest) moves moved) :
    ∀ i ∈ moves, ∃ d, i.Sets d ∧ ∃ reg, d.kind = .physicalReg reg := by
  intro i hi
  obtain ⟨e, he, -, d, hd, hdest⟩ := exists_mem_of_forall₂ hmoves hi
  obtain ⟨reg, hreg, -⟩ := hs.dests e he
  exact ⟨d, hd, reg, hdest.trans hreg⟩

/-- What is fetched into an id is mentioned neither before, nor set again. -/
theorem not_occurs_front (hs : f.SetUp a earlier (fetches ++ moves) later fetched moved)
    (hfetches : List.Forall₂ (fun i e => i.Fills e ∧ ∃ d, i.Sets d ∧ d.kind = e.dest)
      (front ++ i :: rest) fetched)
    (hi : i.def? = some d) (hd : d.kind = .virtualReg id) :
    id ∉ f.paramIds ∧ ¬Occurs (earlier ++ front) id ∧ ∀ j ∈ rest, ∃ d', j.Sets d' ∧
      (∃ w, d'.kind = .virtualReg w) ∧ d'.kind ≠ .virtualReg id := by
  obtain ⟨before, e, after, rfl, hfront, ⟨-, d₀, hd₀, hdest⟩, hrest⟩ :=
    exists_cons_of_forall₂_cons hfetches.flip
  cases hi.symm.trans hd₀.defines
  have hid : e.dest = .virtualReg id := hdest.symm.trans hd
  obtain ⟨hbefore, hafter, hacross⟩ := List.pairwise_append.mp hs.apart
  obtain ⟨w, hw, hparam, hnew⟩ := hs.fresh e (by simp)
  cases hid.symm.trans hw
  refine ⟨hparam, fun hocc => ?_, fun j hj => ?_⟩
  · rcases occurs_append.mp hocc with hocc | ⟨j, hj, hmention⟩
    · exact hnew hocc
    obtain ⟨e', he', hfill, -⟩ := exists_mem_of_forall₂ hfront.flip hj
    obtain ⟨w', hw', -⟩ := hs.fresh e' (List.mem_append_left _ he')
    rcases hfill.mentions hw' hmention with hsame | hreads
    · exact hacross e' he' e List.mem_cons_self (hsame.trans hid.symm)
    · exact hparam (hs.incoming e' (List.mem_append_left _ he') id hreads)
  · obtain ⟨e', he', -, d', hd', hdest'⟩ := exists_mem_of_forall₂ hrest.flip hj
    obtain ⟨w', hw', -⟩ := hs.fresh e' (List.mem_append_right _ (List.mem_cons_of_mem _ he'))
    refine ⟨d', hd', ⟨w', hdest'.trans hw'⟩, fun hsame => ?_⟩
    exact (List.pairwise_cons.mp hafter).1 e' he' (hid.trans (hsame.symm.trans hdest'))

end Function.SetUp

end Machine

theorem Arch.carries_pointer (a : Arch) : a.Carries a.target.pointerBits := by
  cases a with
  | aarch64 => exact .inr (by decide)
  | riscv32 => exact .inl rfl

theorem Arch.holdsAddress_argument
    (hreg : reg ∈ a.target.convention.arguments ++ [a.target.registers.returnBuffer]) :
    a.HoldsAddress (a.target.registers.withWidth reg a.target.pointerBits) := by
  cases a with
  | aarch64 =>
    have hall : ∀ reg ∈ aarch64.target.convention.arguments ++
      [aarch64.target.registers.returnBuffer],
        AArch64.IsGeneralPurpose (aarch64.target.registers.withWidth reg 64) ∧
          AArch64.widthOf (aarch64.target.registers.withWidth reg 64) = 64 := by
      decide +kernel
    exact hall reg hreg
  | riscv32 =>
    have hall : ∀ reg ∈ riscv32.target.convention.arguments ++
      [riscv32.target.registers.returnBuffer],
        riscv32.target.registers.withWidth reg 32 ≠ Riscv.zero := by
      decide +kernel
    exact hall reg hreg

namespace Lowering

/-! ## Arguments of a call -/

/-- **An argument register gets the address of a symbol exactly if it fits.** -/
theorem puts_iff_of_takes {c : Scope} (hc : c.target = a.target) {s : State} {p : Placed}
    {placed : List Placed} {earlier fetches later out : List Instruction}
    {fetched moved : List Fill} {name : String} {ty : LowType}
    (hs : f.SetUp a earlier (fetches ++ placed.map (c.moveOf s)) later fetched moved)
    (hcompiled : Compiled a f earlier (fetches ++ placed.map (c.moveOf s)) f' assigned out)
    (hplain : f.All (·.Plain a.target f.nextId)) (hlength : placed.length = moved.length)
    (hp : p ∈ placed) (hdest : p.dest = c.physical reg ty) (htakes : p.Takes c fetches name reg)
    (pre : List Instruction) :
    a.Puts (pre ++ out) (a.target.registers.root reg) name ↔ a.Carries ty.bits := by
  obtain ⟨hfetches, hmoves⟩ := hs.forall₂_sets hplain (by rwa [List.length_map])
  obtain ⟨ps, qs, rfl⟩ := List.append_of_mem hp
  rw [List.map_append, List.map_cons] at hs hcompiled hmoves
  have hpost : ∀ i ∈ qs.map (c.moveOf s), ∃ d, i.Sets d ∧ ∀ P : Placement a.target,
      P.root d.kind ≠ a.target.registers.root reg := by
    intro i hi
    obtain ⟨d, hd, hne⟩ := hs.sets_behind hmoves (def?_moveOf s p) i hi
    refine ⟨d, hd, fun P => ?_⟩
    have hroot : P.root p.dest.kind = a.target.registers.root reg := by
      rw [hdest, Scope.physical, hc]
      exact a.root_withWidth reg _
    exact hroot ▸ hne P
  cases htakes with
  | @address ty' hargument hdest' hreg =>
    have hmove : c.moveOf s p = .generic .globalAddress
      [p.dest, .global name c.target.pointerType] := by
      rw [Scope.moveOf, hargument]
      rfl
    have hty : ty = a.target.pointerType := by
      rw [← hc]
      exact congrArg Operand.ty (hdest.symm.trans hdest')
    rw [hmove, hdest', Scope.physical, hc, ← List.append_assoc] at hcompiled
    rw [hc] at hreg
    rw [hty]
    exact iff_of_true
      ((hcompiled.puts_address hpost rfl (Arch.holdsAddress_argument hreg)).append_left pre)
      a.carries_pointer
  | @copy id hargument hfetch hreg =>
    obtain ⟨front, rest, rfl⟩ := List.append_of_mem hfetch
    obtain ⟨hparam, hnew, hrest⟩ := hs.not_occurs_front hfetches rfl rfl
    have hmove : c.moveOf s p =
        .generic (moveOp p.dest.ty) [p.dest, .virtualReg id a.target.pointerType] := by
      rw [Scope.moveOf, hargument, hc]
      rfl
    have hsplit : front ++ c.fetchOf id name :: rest ++
        (ps.map (c.moveOf s) ++ c.moveOf s p :: qs.map (c.moveOf s)) =
          front ++ .generic .globalAddress
            [.virtualReg id a.target.pointerType, .global name a.target.pointerType] ::
              ((rest ++ ps.map (c.moveOf s)) ++ c.moveOf s p :: qs.map (c.moveOf s)) := by
      rw [Scope.fetchOf, hc]
      simp
    have hmid : ∀ i ∈ rest ++ ps.map (c.moveOf s), ∃ d, i.Sets d ∧ ((∃ w, d.kind = .virtualReg w) ∨
        ∃ reg, d.kind = .physicalReg reg) ∧ d.kind ≠ .virtualReg id := by
      refine List.forall_mem_append.mpr ⟨fun i hi => ?_, fun i hi => ?_⟩
      · obtain ⟨d, hd, hkind, hne⟩ := hrest i hi
        exact ⟨d, hd, .inl hkind, hne⟩
      · obtain ⟨d, hd, reg', hreg'⟩ := hs.sets_moves hmoves i (List.mem_append_left _ hi)
        exact ⟨d, hd, .inr ⟨reg', hreg'⟩, by simp [hreg']⟩
    have hop : moveOp p.dest.ty = .mov ∨ moveOp p.dest.ty = .movf := by
      rw [moveOp]
      split
      · exact .inr rfl
      · exact .inl rfl
    have hsize : p.dest.size = ty.bits := by
      rw [hdest]
      rfl
    have hcode := congrArg Instruction.opcode hmove
    have hoperands := congrArg Instruction.operands hmove
    have hkind : p.dest.kind = .physicalReg (a.target.registers.withWidth reg p.dest.size) := by
      rw [hsize, ← hc, hdest]
      rfl
    have harrives := hcompiled.puts_copy_iff hpost pre hsplit hparam hnew hmid hcode hop hoperands
      (def?_moveOf s p) (hc ▸ hreg) hkind
    rwa [hsize] at harrives

variable {source : Ir.Function} {g f₁ f₂ f₃ g' : Function} {k : Nat} {b : Ir.Block}
  {done todo : List Ir.Instruction} {result : Option Ir.TempId} {callee : String}
  {args : List Ir.Value} {ty : Ir.Ty} {returnBuffer : Option UInt64}

/-- **Addresses of globals arrive exactly if they fit**: in front of each call of a compiled function,
the argument register of a global gets the address of the global if all of it fits the width at
which the argument is passed. -/
theorem exists_arrivals (hlower : lowerFunction a.target source = .ok g)
    (hproduces : a.target.Produces g) (hlegalize : g.legalize a.target = .ok f₁)
    (hallocate : (f₁.selectClasses a.target).allocateRegisters a.target = .ok f₂)
    (hselect : f₂.selectInstructions a.target = .ok f₃)
    (hframes : f₃.insertFrameCode a.target = .ok g') (hb : source.blocks[k]? = some b)
    (hi : b.instructions = done ++ .call result callee args ty returnBuffer :: todo) :
    ∃ before registers, g'.CallsAfter a k (done.countP (·.isCall)) callee before [] ∧
      Scope.Assigns ⟨a.target, source.name⟩ source (returnBuffer.map (·.toNat)) {} args.zipIdx
        registers ∧
      ∀ j name objTy, args[j]? = some (.global name objTy) → objTy.isAggregate = false →
        ∃ reg, registers[j]? = some [reg] ∧
          (a.Puts before (a.target.registers.root reg) name ↔
            a.Carries (Scope.passedAs ⟨a.target, source.name⟩
              (returnBuffer.map (·.toNat) == some j) objTy).bits) := by
  obtain ⟨x, block, before, behind, rfl, rfl, hblock, hsplit, hx, hparams, hcount⟩ :=
    exists_callSite hlower hb hi
  obtain ⟨fetched, moved, groups, hbefore, hsetUp, hmoves, -, -⟩ := hx.setUp a hparams hblock hsplit
  have hhomed : x.reached.calling.Homed ⟨a.target, source.name⟩ source :=
    fun arg home hhome => hx.reaches.tracks.exists_load hhome
  obtain ⟨code, registers, hcode, hserves⟩ := serves_placeArguments a rfl hx.incoming hhomed hx.places
  have hsetUpCode : x.setUpCode ⟨a.target, source.name⟩ =
      code ++ x.placed.map (Scope.moveOf ⟨a.target, source.name⟩ x.staged) := by
    rw [CallSite.setUpCode, hcode, CallSite.moves]
    exact congrArg (· ++ _) List.drop_left
  rw [hsetUpCode] at hsetUp hbefore
  have hplain := hproduces.plain
  have hcalls : g.CallsAfter a k (done.countP (·.isCall)) callee x.reached.code.toList
      (code ++ x.placed.map (Scope.moveOf ⟨a.target, source.name⟩ x.staged)) :=
    ⟨⟨block, _, behind, hblock, by rw [hsplit, hbefore, List.append_assoc], rfl, rfl, rfl, rfl⟩,
      hcount⟩
  have hsets : ∀ i ∈ code ++ x.placed.map (Scope.moveOf ⟨a.target, source.name⟩ x.staged),
      ∃ d, i.Sets d := by
    intro i hi
    obtain ⟨e, -, hfill⟩ := exists_mem_of_forall₂ hsetUp.fills hi
    have hin : i ∈ g.instructions := by
      rw [hsetUp.split]
      exact List.mem_append_left _ (List.mem_append_right _ hi)
    exact ((hplain i hin).exists_sets hfill).imp fun d h => h.1
  obtain ⟨f', assigned, before', out, hnative, hcompiled⟩ :=
    hcalls.exists_compiled hsets hproduces hlegalize hallocate hselect hframes
  have hearlier : g.earlier k x.reached.code.toList = x.earlier := by
    rw [Function.earlier, CallSite.earlier, hx.blocks_eq]
  rw [hearlier] at hcompiled
  refine ⟨before' ++ out, registers, hnative.consume (hcompiled.not_calls hsets), hserves.assigns,
    fun j name objTy hj hscalar => ?_⟩
  obtain ⟨reg, hreg, p, hp, hdest, htakes⟩ := hserves.takes j j name objTy (by simp [hj]) hscalar
  exact ⟨reg, hreg, puts_iff_of_takes rfl hsetUp hcompiled hplain hmoves.length_eq hp hdest htakes
    before'⟩

theorem carries_passedAs_iff {name : String} {isBuffer : Bool} {ty : Ir.Ty} :
    a.Carries (Scope.passedAs ⟨a.target, name⟩ isBuffer ty).bits ↔
      a = .riscv32 ∨ isBuffer ∨ 32 < (Scope.lowType ⟨a.target, name⟩ ty).bits := by
  cases isBuffer with
  | true => exact iff_of_true a.carries_pointer (.inr (.inl rfl))
  | false => simp [Arch.Carries, Scope.passedAs]

end Lowering

namespace Options

variable {o : Options} {m : Ir.Module} {code : Machine.Module} {source : Ir.Function} {b : Ir.Block}
  {done todo : List Ir.Instruction} {result : Option Ir.TempId} {callee : String}
  {args : List Ir.Value} {ty : Ir.Ty} {returnBuffer : Option UInt64} {index k : Nat}

/-- **Addresses of globals reach a call** of code that is compiled without the optimizer exactly if
they have 32 bits, the argument is the caller's buffer, or the type of the global has more than 32
bits: then, and only then, all that runs in the block up to the call leaves the whole address in the
argument register. -/
theorem addresses_arrive_iff (hoptimize : o.optimize = false) (h : o.machineCode m = .ok code)
    (hsource : (m.functions.filter fun f => !f.isDeclaration)[index]? = some source)
    (hb : source.blocks[k]? = some b)
    (hi : b.instructions = done ++ .call result callee args ty returnBuffer :: todo) :
    ∃ g before registers, code.functions[index]? = some g ∧
      g.CallsAfter o.arch k (done.countP (·.isCall)) callee before [] ∧
      Lowering.Scope.Assigns ⟨o.target, source.name⟩ source (returnBuffer.map (·.toNat)) {}
        args.zipIdx registers ∧
      ∀ j name objTy, args[j]? = some (.global name objTy) → objTy.isAggregate = false →
        ∃ reg, registers[j]? = some [reg] ∧
          (o.arch.Puts before (o.target.registers.root reg) name ↔
            o.arch = .riscv32 ∨ returnBuffer.map (·.toNat) = some j ∨
              32 < (Lowering.Scope.lowType ⟨o.target, source.name⟩ objTy).bits) := by
  obtain ⟨g, f₀, f₁, f₂, f₃, f₄, hlower, hsame, hproduces, hlegalize, hallocate, hselect, hframes,
    hcode⟩ := exists_passes_at h hsource
  rw [hoptimize] at hsame
  cases hsame
  obtain ⟨before, registers, hcalls, hassigns, harrives⟩ := Lowering.exists_arrivals (a := o.arch)
    hlower hproduces hlegalize hallocate hselect hframes hb hi
  refine ⟨f₄, before, registers, hcode, hcalls, hassigns, fun j name objTy hj hscalar => ?_⟩
  obtain ⟨reg, hreg, hiff⟩ := harrives j name objTy hj hscalar
  exact ⟨reg, hreg, hiff.trans (Lowering.carries_passedAs_iff.trans (by rw [beq_iff_eq]; rfl))⟩

/-- `f()` calls `g(@x, @y)`, where `x` has 32 bits and `y` has 64. -/
def publishing : Ir.Module where
  name := "m"
  functions := [{
    name := "f"
    returnType := .void
    parameters := []
    blocks := [⟨"entry",
      [.call none "g" [.global "x" .i32, .global "y" .i64] .void none, .ret none]⟩] }]

theorem publishing_arrives : ∃ code g before r s, machineCode {} publishing = .ok code ∧
    code.functions[0]? = some g ∧ g.CallsAfter .aarch64 0 0 "g" before [] ∧
    ¬Arch.aarch64.Puts before (Arch.aarch64.target.registers.root r) "x" ∧
    Arch.aarch64.Puts before (Arch.aarch64.target.registers.root s) "y" := by
  have hok : (machineCode {} publishing).isOk := by decide +kernel
  cases hcode : machineCode {} publishing with
  | error e => simp [hcode, Except.isOk, Except.toBool] at hok
  | ok code =>
    obtain ⟨g, before, registers, hg, hcalls, -, harrives⟩ :=
      @addresses_arrive_iff {} publishing _ _ _ [] _ _ _ _ _ _ 0 0 rfl hcode rfl rfl rfl
    obtain ⟨r, -, hx⟩ := harrives 0 "x" .i32 rfl rfl
    obtain ⟨s, -, hy⟩ := harrives 1 "y" .i64 rfl rfl
    exact ⟨code, g, before, r, s, rfl, hg, hcalls, hx.not.mpr (by decide), hy.mpr (by decide)⟩

/-- `f()` calls `g(@x)`, where `x` has 32 bits. -/
def pointing : Ir.Module where
  name := "m"
  functions := [{
    name := "f"
    returnType := .void
    parameters := []
    blocks := [⟨"entry", [.call none "g" [.global "x" .i32] .void none, .ret none]⟩] }]

/-- The move into `x0` in its code: it moves half of a register. -/
def pointingMove : Instruction :=
  (Instruction.generic .mov [.physicalReg (AArch64.w 0) (.integer 32),
    ⟨.physicalReg (AArch64.w 1), .pointer 32, some AArch64.gpr64⟩]).setOpcode AArch64.Op.movR.opcode

/-- Its code in front of the call: the address is taken into `x1`, and moved. -/
def pointingCode : List Instruction :=
  let sp := Operand.physicalReg AArch64.sp (.pointer 64)
  let taken : Operand := ⟨.physicalReg (AArch64.x 1), .pointer 64, some AArch64.gpr64⟩
  [(Function.adjustStack aarch64 .sub 16).setOpcode AArch64.Op.subI.opcode,
    (Instruction.generic .store [.physicalReg (AArch64.x 30) (.integer 64), sp,
      .immediate 0 (.integer 64)]).setOpcode AArch64.Op.str.opcode,
    (AArch64.Op.adrp.on [taken, .global "x" (.pointer 64)]).markExpanded,
    ((Instruction.generic .add [taken, taken, .global ":lo12:x" (.pointer 64)]).setOpcode
      AArch64.Op.addI.opcode).markExpanded,
    pointingMove]

/-- Its call, and the code behind it. -/
def pointingExit : List Instruction :=
  let sp := Operand.physicalReg AArch64.sp (.pointer 64)
  [(Instruction.generic .call [.function "g"]).setOpcode AArch64.Op.bl.opcode,
    (Instruction.generic .load [.physicalReg (AArch64.x 30) (.integer 64), sp,
      .immediate 0 (.integer 64)]).setOpcode AArch64.Op.ldr.opcode,
    (Function.adjustStack aarch64 .add 16).setOpcode AArch64.Op.addI.opcode,
    (Instruction.generic .ret []).setOpcode AArch64.Op.ret.opcode]

/-- **The address of a small global is cut to 32 bits.** -/
theorem pointing_cut : ∃ code g, machineCode {} pointing = .ok code ∧
    code.functions[0]? = some g ∧ g.CallsAfter .aarch64 0 0 "g" pointingCode [] ∧
    ¬Arch.aarch64.Puts pointingCode (AArch64.x 0) "x" := by
  have hblocks : (machineCode {} pointing).map (fun code => code.functions.map (·.blocks)) =
      .ok [[⟨"entry", pointingCode ++ pointingExit⟩]] := by
    decide +kernel
  obtain ⟨code, hcode, hfunctions⟩ := map_eq_ok.mp hblocks
  obtain ⟨g, hg, hblock⟩ : ∃ g, code.functions[0]? = some g ∧
      g.blocks = [⟨"entry", pointingCode ++ pointingExit⟩] := by
    cases hlist : code.functions with
    | nil => simp [hlist] at hfunctions
    | cons g rest => exact ⟨g, rfl, (List.cons.inj (hlist ▸ hfunctions)).1⟩
  have hmove (symbols : String → BitVec 64) (σ : RegId → BitVec 64) :
      AArch64.computes? symbols pointingMove σ =
        some (((σ (AArch64.x 1)).setWidth 32).setWidth 64) :=
    AArch64.computes?_move rfl rfl (show AArch64.IsGeneralPurpose (AArch64.w 0) by decide)
      (show AArch64.IsGeneralPurpose (AArch64.w 1) by decide) rfl
  refine ⟨code, g, hcode, hg, ⟨⟨_, _, _, by rw [hblock]; rfl, rfl, rfl, rfl, rfl, rfl⟩, rfl⟩, ?_⟩
  show ¬Arch.aarch64.Puts (pointingCode.take 4 ++ [pointingMove]) (AArch64.x 0) "x"
  refine Arch.Puts.not_of_loses rfl (fun _ h => absurd h List.not_mem_nil)
    ⟨fun _ => 0x100000000, fun σ h => ?_⟩
  exact AArch64.setWidth_ne _ (Option.some.inj ((hmove (fun _ => 0x100000000) σ).symm.trans h))

end Options

end Retarget
