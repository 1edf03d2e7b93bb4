import Retarget.Proofs.Convention.SetUps

/-!
# Calls of a function

What lowering emits is arranged at every step (`Reaches.arranged`), so every call of a lowered
function is one that was set up (`isSetUp_of_lowerFunction`).  Machine parameters are declared before
all code (`Reaches.incoming`), and the ids in the code so far are in use (`Reaches.tracked`).
-/

namespace Retarget

def Ir.Instruction.isCall : Ir.Instruction → Bool
  | .call .. => true
  | _ => false

theorem countP_eq_zero_of_forall {α : Type} {p : α → Bool} {as : List α}
    (h : ∀ a ∈ as, p a = false) : as.countP p = 0 :=
  List.countP_eq_zero.mpr fun a ha => by simp [h a ha]

namespace Lowering

open Machine

variable {c : Scope} {s s' : State} {f : Ir.Function}

/-! ## Code without calls -/

/-- The instruction is no call and writes no physical register. -/
structure IsQuiet (i : Instruction) : Prop where
  not_call : i.isCall = false
  not_writes : ¬WritesPhysical i

theorem IsInner.isQuiet {i : Instruction} (h : IsInner i) : IsQuiet i :=
  ⟨h.not_call, h.not_writesPhysical⟩

theorem State.Arranged.extendQuiet (h : s.Arranged c f) {E : Instruction → Prop} {N : Note → Prop}
    (hE : ∀ i, E i → IsQuiet i) (hevolves : Evolves E N s s') : s'.Arranged c f := by
  obtain ⟨code, hcode, hquiet⟩ := exists_code_of_evolves hevolves
  exact h.extend (function_of_evolves hevolves).2.2 hcode
    (fun i hi => (hE i (hquiet i hi)).not_call)
    (settled_of_forall fun i hi => (hE i (hquiet i hi)).not_writes)

theorem State.Arranged.extendInner (h : s.Arranged c f) {N : Note → Prop}
    (hevolves : Evolves IsInner N s s') : s'.Arranged c f :=
  h.extendQuiet (fun _ hi => hi.isQuiet) hevolves

/-! ## Calls -/

theorem goes_receive {N : Note → Prop} (hN : ∀ id slot, N (.home id (.slot slot)))
    (callee : String) (ty : Ir.Ty) (result : Option Ir.TempId) :
    Goes IsQuiet N s (c.receive callee ty result) fun _ => True := by
  have hstore : ∀ dest source : Operand, IsQuiet (.generic .store [dest, source]) :=
    fun dest source => ⟨rfl, by rintro ⟨o, ⟨⟩, -⟩⟩
  cases result with
  | none => exact .pure trivial
  | some result =>
    rw [Scope.receive]
    split
    · refine (goes_fitsRegisters ty).bind fun fits s₁ _ _ => ?_
      split
      · exact .unsupported_bind _
      · refine (goes_size ty).bind fun bytes s₂ _ _ => ?_
        refine (goes_freshSlot bytes).bind fun slot s₃ _ _ => ?_
        refine (goes_piecesOf ty).bind fun chunks s₄ _ _ => ?_
        refine (Goes.forM fun part _ s' _ => ?_).bind fun _ s₅ _ _ => goes_setHome (hN _ slot)
        exact goes_emit (hstore _ _) (by rintro ⟨⟩)
    · refine (Goes.check (P := fun _ => True) fun _ _ => trivial).bind fun root s₁ _ _ => ?_
      refine (goes_tempReg result _).bind fun dest s₂ _ hdest => ?_
      obtain ⟨reg, rfl⟩ := hdest
      have hmove : ∀ source, IsQuiet (.generic (moveOp (c.lowType ty))
          [.virtualReg reg (c.lowType ty), source]) := by
        intro source
        rw [moveOp]
        split <;> exact ⟨rfl, by rintro ⟨o, ⟨⟩, ⟨⟩⟩⟩
      exact goes_emit (hmove _) fun hcall => by simp [(hmove _).not_call] at hcall

theorem arranged_lowerCall {result : Option Ir.TempId} {callee : String} {args : List Ir.Value}
    {ty : Ir.Ty} {returnBuffer : Option UInt64} {todo : List Ir.Instruction} {b : Ir.Block}
    {rest : List Ir.Block} (hs : s.Arranged c f)
    (hreach : Reaches c f (.call result callee args ty returnBuffer :: todo) b rest s)
    (h : (c.lowerCall result callee args ty (returnBuffer.map (·.toNat))).run s = .ok ((), s')) :
    s'.Arranged c f := by
  rw [lowerCall_eq_bind] at h
  obtain ⟨_, s₂, hcall, hreceive⟩ := run_bind_eq_ok.mp h
  obtain ⟨placed, s₁, hplaced, rfl⟩ := run_lowerCall_none.mp hcall
  have hstaging : Evolves IsInner (fun _ => True) s.calling s₁ :=
    ((goes_placeArguments (fun _ hi _ _ => hi) callee _ _ {}).ok _ _ hplaced).1
  have hblocks : s₁.function.blocks = s.function.blocks := (function_of_evolves hstaging).2.2
  have hcalling : s.calling.Arranged c f := hs.same rfl rfl
  have hs₁ : s₁.Arranged c f := hcalling.extendInner hstaging
  let x : CallSite := ⟨result, callee, args, ty, returnBuffer, todo, b, rest, s, s₁, placed⟩
  have hx : x.IsSetUp c f s₁.function.blocks (s₁.code.toList ++ x.moves c)
      (.generic .call [.function callee]) :=
    ⟨hreach, hs.settled, hplaced, hblocks.symm, rfl, rfl⟩
  refine State.Arranged.extendQuiet (N := fun _ => True) ?_ (fun _ hi => hi)
    ((goes_receive (fun _ _ => trivial) callee ty result).ok _ _ hreceive).1
  have hmoves : ∀ i ∈ x.moves c, i.isCall = false := by
    intro i hi
    obtain ⟨p, -, rfl⟩ := List.mem_map.mp hi
    exact (flags_moveOf s₁ p).2
  exact hs₁.call rfl (State.code_append _ _) hmoves rfl hx

/-! ## Returns -/

theorem exists_ret_of_lowerReturn {value : Option Ir.Value}
    (h : (c.lowerReturn value).run s = .ok ((), s')) :
    ∃ s₁ code operands, Evolves IsInner (fun _ => True) s s₁ ∧ (∀ i ∈ code, i.isCall = false) ∧
      s' = s₁.append (code ++ [.generic .ret operands]) := by
  have hnone : ∀ i ∈ ([] : List Instruction), i.isCall = false := by simp
  cases value with
  | none =>
    cases h
    exact ⟨s, [], [], .refl, hnone, rfl⟩
  | some value =>
    dsimp only [Scope.lowerReturn] at h
    split at h
    · obtain ⟨fits, s₁, hfits, hrun⟩ := run_bind_eq_ok.mp h
      obtain ⟨_, -, -, rfl, -⟩ := run_fitsRegisters_eq_ok.mp hfits
      split at hrun
      · cases hrun
      · obtain ⟨parts, s₂, hparts, h⟩ := run_bind_eq_ok.mp hrun
        have hinner : Evolves IsInner (fun _ => True) s₁ s₂ :=
          ((goes_aggregateParts (fun _ hi _ _ => hi) value _).ok _ _ hparts).1
        obtain ⟨_, s₃, hmoves, h⟩ := run_bind_eq_ok.mp h
        rw [run_forM_emit (fun part _ _ => run_emitInto part.1 part.2)] at hmoves
        cases hmoves
        rw [run_emit] at h
        cases h
        rw [State.append_append]
        refine ⟨s₂, _, [], hinner, fun i hi => ?_, rfl⟩
        obtain ⟨part, -, rfl⟩ := List.mem_map.mp hi
        obtain ⟨op, hop, hmove⟩ := exists_intoInstruction_eq part.1 part.2
        rw [hmove]
        simp only [List.mem_cons, List.not_mem_nil, or_false] at hop
        rcases hop with rfl | rfl | rfl <;> rfl
    · obtain ⟨operand, s₁, hoperand, h⟩ := run_bind_eq_ok.mp h
      have hinner : Evolves IsInner (fun _ => True) s s₁ :=
        ((goes_operand (fun _ hi _ _ => hi) value).ok _ _ hoperand).1
      split at h
      · obtain ⟨root, s₂, hcheck, hrun⟩ := run_bind_eq_ok.mp h
        obtain ⟨-, rfl⟩ := run_check_eq_ok.mp hcheck
        obtain ⟨_, s₃, hload, hrun⟩ := run_bind_eq_ok.mp hrun
        rw [run_emit] at hload
        cases hload
        rw [run_emit] at hrun
        cases hrun
        rw [State.append_append]
        exact ⟨_, _, [], hinner, List.forall_mem_singleton.mpr rfl, rfl⟩
      · rw [run_emit] at h
        cases h
        exact ⟨s₁, [], [operand], hinner, hnone, rfl⟩

theorem arranged_lowerReturn {value : Option Ir.Value} (hs : s.Arranged c f)
    (h : (c.lowerReturn value).run s = .ok ((), s')) : s'.Arranged c f := by
  obtain ⟨s₁, code, operands, hinner, hcode, rfl⟩ := exists_ret_of_lowerReturn h
  refine (hs.extendInner hinner).extend rfl (State.code_append _ _) ?_ (settled_concat (.inr rfl))
  exact List.forall_mem_append.mpr ⟨hcode, List.forall_mem_singleton.mpr rfl⟩

/-! ## Functions -/

theorem State.Arranged.parameters (h : s.Arranged c f)
    (hsteps : Relation.ReflTransGen ParameterStep s s') : s'.Arranged c f := by
  induction hsteps with
  | refl => exact h
  | tail _ hstep ih =>
    cases hstep with
    | store place source =>
      have hquiet : ¬WritesPhysical (.generic .store [place, source]) := by rintro ⟨o, ⟨⟩, -⟩
      exact ih.extend rfl (State.code_append _ _) (List.forall_mem_singleton.mpr rfl)
        (settled_of_forall (List.forall_mem_singleton.mpr hquiet))
    | _ => exact ih.same rfl rfl

theorem State.arranged_start (c : Scope) (f : Ir.Function) : (State.start f).Arranged c f where
  settled := settled_of_forall (by simp [State.start])
  code before call behind hsplit _ := by simp [State.start] at hsplit
  blocks k block before call behind hblock := by simp [State.start] at hblock

theorem State.Arranged.close (h : s.Arranged c f) {name : String}
    (hrun : (Scope.closeBlock name).run s = .ok ((), s')) : s'.Arranged c f := by
  cases hrun
  refine ⟨settled_of_forall (by simp), by simp,
    fun k block before call behind hblock hsplit hcall => ?_⟩
  dsimp only at hblock ⊢
  rw [List.getElem?_append] at hblock
  split at hblock
  · next hlt =>
    rw [List.take_append_of_le_length (Nat.le_of_lt hlt)]
    exact h.blocks k block before call behind hblock hsplit hcall
  · next hle =>
    obtain ⟨hlt, rfl⟩ := List.getElem?_eq_some_iff.mp hblock
    have hk : k = s.function.blocks.length := by
      rw [List.length_singleton] at hlt
      omega
    rw [List.getElem_singleton] at hsplit
    rw [hk, List.take_left]
    exact h.code before call behind hsplit hcall

theorem arranged_lowerInstruction {next : Option String} {i : Ir.Instruction}
    {todo : List Ir.Instruction} {b : Ir.Block} {rest : List Ir.Block} (hs : s.Arranged c f)
    (hreach : Reaches c f (i :: todo) b rest s)
    (hrun : (c.lowerInstruction next i).run s = .ok ((), s')) : s'.Arranged c f := by
  cases hlocal : isLocal i with
  | true =>
    have hinner : Goes IsInner (fun _ => True) s (c.lowerInstruction next i) fun _ => True :=
      goes_lowerInstruction_of_isLocal next (fun _ _ => trivial) (fun _ hi _ => hi) hlocal
    exact hs.extendInner (hinner.ok _ _ hrun).1
  | false =>
    cases i with
    | call result callee args ty returnBuffer => exact arranged_lowerCall hs hreach hrun
    | ret value => exact arranged_lowerReturn hs hrun
    | _ => cases hlocal

variable {todo : List Ir.Instruction} {b : Ir.Block} {rest : List Ir.Block}

/-- **All code that lowering emits is arranged.** -/
theorem Reaches.arranged (h : Reaches c f todo b rest s) : s.Arranged c f := by
  induction h with
  | enter _ hparams => exact (State.arranged_start c f).parameters (parameterSteps hparams)
  | step h hrun ih => exact arranged_lowerInstruction ih h hrun
  | next _ hrun ih => exact ih.close hrun

theorem Reaches.tracked (h : Reaches c f todo b rest s) : Tracked c.target s := by
  have hstart : Tracked c.target (.start f) :=
    ⟨rfl, by simp [State.start], by simp [State.start, Function.All, Function.instructions],
      by simp [State.start], by simp [State.start], by simp [State.start]⟩
  induction h with
  | enter _ hparams =>
    have hleads : Leads c.target (.start f) (f.parameters.forM c.lowerParameter) fun _ _ => True :=
      .forM (R := fun _ _ => True) hstart (fun _ _ => trivial) (fun _ _ _ _ _ => trivial)
        fun p _ hs _ => leads_lowerParameter hs p
    exact (hleads.ok _ _ hparams).1
  | @step i _ _ _ _ _ _ hrun ih => exact ((leads_lowerInstruction ih _ i).ok _ _ hrun).1
  | next _ hrun ih => exact ((leads_closeBlock ih _).ok _ _ hrun).1

theorem Reaches.params_eq (h : Reaches c f todo b rest s) :
    ∃ s₀, (f.parameters.forM c.lowerParameter).run (.start f) = .ok ((), s₀) ∧
      s.function.params = s₀.function.params := by
  induction h with
  | enter _ hparams => exact ⟨_, hparams, rfl⟩
  | @step i _ _ _ _ _ _ hrun ih =>
    obtain ⟨s₀, hs₀, hsame⟩ := ih
    have hevolves : Evolves (fun _ => True) (fun _ => True) _ _ :=
      ((goes_lowerInstruction _ i (fun _ _ => trivial) fun _ _ => trivial).ok _ _ hrun).1
    exact ⟨s₀, hs₀, (function_of_evolves hevolves).2.1.trans hsame⟩
  | next _ hrun ih =>
    obtain ⟨s₀, hs₀, hsame⟩ := ih
    cases hrun
    exact ⟨s₀, hs₀, hsame⟩

theorem blocks_of_parameterSteps (hsteps : Relation.ReflTransGen ParameterStep s s') :
    s'.function.blocks = s.function.blocks := by
  induction hsteps with
  | refl => rfl
  | tail _ hstep ih => cases hstep <;> exact ih

theorem Reaches.forM (h : Reaches c f todo b rest s)
    (hrun : (todo.forM (c.lowerInstruction (rest.head?.map (·.name)))).run s = .ok ((), s')) :
    Reaches c f [] b rest s' := by
  induction todo generalizing s with
  | nil =>
    cases hrun
    exact h
  | cons i todo ih =>
    rw [List.forM] at hrun
    obtain ⟨_, s₁, hfirst, hrun⟩ := run_bind_eq_ok.mp hrun
    exact ih (h.step hfirst) hrun

theorem Reaches.last {next : List Ir.Block} (h : Reaches c f b.instructions b next s)
    (hrun : (c.lowerBlocks (b :: next)).run s = .ok ((), s')) :
    ∃ b' s₁, Reaches c f [] b' [] s₁ ∧ (Scope.closeBlock b'.name).run s₁ = .ok ((), s') := by
  induction next generalizing b s with
  | nil =>
    rw [Scope.lowerBlocks] at hrun
    obtain ⟨_, s₁, hbody, hrun⟩ := run_bind_eq_ok.mp hrun
    obtain ⟨_, s₂, hclose, hrun⟩ := run_bind_eq_ok.mp hrun
    cases hrun
    exact ⟨b, s₁, h.forM hbody, hclose⟩
  | cons b' next ih =>
    rw [Scope.lowerBlocks] at hrun
    obtain ⟨_, s₁, hbody, hrun⟩ := run_bind_eq_ok.mp hrun
    obtain ⟨_, s₂, hclose, hrun⟩ := run_bind_eq_ok.mp hrun
    exact ih ((h.forM hbody).next hclose) hrun

/-! ## Calls so far -/

def State.callCount (s : State) : Nat := s.code.toList.countP (·.isCall)

theorem State.callCount_append (s : State) (code : List Instruction) :
    (s.append code).callCount = s.callCount + code.countP (·.isCall) := by
  rw [callCount, callCount, State.code_append, List.countP_append]

theorem callCount_of_evolves {E : Instruction → Prop} {N : Note → Prop} (h : Evolves E N s s')
    (hE : ∀ i, E i → i.isCall = false) : s'.callCount = s.callCount := by
  obtain ⟨code, hcode, hall⟩ := exists_code_of_evolves h
  have hnone : code.countP (·.isCall) = 0 :=
    countP_eq_zero_of_forall fun i hi => hE i (hall i hi)
  rw [State.callCount, hcode, List.countP_append, hnone]
  rfl

/-- A call adds one call, whatever it does with its result. -/
theorem callCount_lowerCall {result : Option Ir.TempId} {callee : String} {args : List Ir.Value}
    {ty : Ir.Ty} {returnBuffer : Option Nat}
    (h : (c.lowerCall result callee args ty returnBuffer).run s = .ok ((), s')) :
    s'.callCount = s.callCount + 1 := by
  rw [lowerCall_eq_bind] at h
  obtain ⟨_, s₂, hcall, hreceive⟩ := run_bind_eq_ok.mp h
  obtain ⟨placed, s₁, hplaced, rfl⟩ := run_lowerCall_none.mp hcall
  have hstaging : Evolves IsInner (fun _ => True) s.calling s₁ :=
    ((goes_placeArguments (fun _ hi _ _ => hi) callee _ _ {}).ok _ _ hplaced).1
  have hreceived : Evolves IsQuiet (fun _ => True) _ s' :=
    ((goes_receive (fun _ _ => trivial) callee ty result).ok _ _ hreceive).1
  have hmoves : (placed.map (c.moveOf s₁)).countP (·.isCall) = 0 := by
    refine countP_eq_zero_of_forall fun i hi => ?_
    obtain ⟨p, -, rfl⟩ := List.mem_map.mp hi
    exact (flags_moveOf s₁ p).2
  rw [callCount_of_evolves hreceived fun i hi => hi.not_call, State.callCount_append,
    List.countP_append, hmoves, callCount_of_evolves hstaging fun i hi => hi.not_call]
  rfl

theorem callCount_lowerInstruction {i : Ir.Instruction}
    (h : (c.lowerInstruction next i).run s = .ok ((), s')) :
    s'.callCount = s.callCount + [i].countP (·.isCall) := by
  cases hlocal : isLocal i with
  | true =>
    have hevolves : Evolves IsInner (fun _ => True) s s' :=
      ((goes_lowerInstruction_of_isLocal next (fun _ _ => trivial) (fun _ hi _ => hi)
        hlocal).ok _ _ h).1
    have hnot : i.isCall = false := by cases i <;> first | rfl | cases hlocal
    rw [callCount_of_evolves hevolves fun i hi => hi.not_call, List.countP_singleton, hnot]
    rfl
  | false =>
    cases i with
    | call result callee args ty returnBuffer => exact callCount_lowerCall h
    | ret value =>
      obtain ⟨s₁, code, operands, hinner, hcode, rfl⟩ := exists_ret_of_lowerReturn h
      rw [State.callCount_append, List.countP_append, countP_eq_zero_of_forall hcode,
        callCount_of_evolves hinner fun i hi => hi.not_call]
      rfl
    | _ => cases hlocal

theorem callCount_parameterSteps (hsteps : Relation.ReflTransGen ParameterStep s s') :
    s'.callCount = s.callCount := by
  induction hsteps with
  | refl => rfl
  | tail _ hstep ih =>
    cases hstep with
    | store place source =>
      rw [State.callCount_append, ih]
      rfl
    | _ => exact ih

/-- **Each call is lowered to one call**: those in the code so far and those still to do make up the
calls of the block. -/
theorem Reaches.callCount_add (h : Reaches c f todo b rest s) :
    s.callCount + todo.countP (·.isCall) = b.instructions.countP (·.isCall) := by
  induction h with
  | enter _ hparams =>
    rw [callCount_parameterSteps (parameterSteps hparams)]
    exact Nat.zero_add _
  | @step i todo b rest s s' h hrun ih =>
    rw [callCount_lowerInstruction hrun, Nat.add_assoc, ← List.countP_append]
    exact ih
  | next _ hrun ih =>
    cases hrun
    exact Nat.zero_add _

/-- In front of the instructions that are left, the block has the calls of the code so far. -/
theorem Reaches.exists_done (h : Reaches c f todo b rest s) :
    ∃ done, b.instructions = done ++ todo ∧ done.countP (·.isCall) = s.callCount := by
  obtain ⟨done, hdone⟩ := h.isSuffix.2
  have hcount := h.callCount_add
  rw [← hdone, List.countP_append, Nat.add_right_cancel_iff] at hcount
  exact ⟨done, hdone.symm, hcount.symm⟩

/-- The blocks that are closed are those in front of the block that lowering is in. -/
theorem Reaches.drop_blocks (h : Reaches c f todo b rest s) :
    f.blocks.drop s.function.blocks.length = b :: rest := by
  induction h with
  | enter hblocks hparams =>
    rw [blocks_of_parameterSteps (parameterSteps hparams)]
    exact hblocks
  | @step i _ _ _ _ _ _ hrun ih =>
    have hevolves : Evolves (fun _ => True) (fun _ => True) _ _ :=
      ((goes_lowerInstruction _ i (fun _ _ => trivial) fun _ _ => trivial).ok _ _ hrun).1
    rwa [(function_of_evolves hevolves).2.2]
  | next _ hrun ih =>
    cases hrun
    dsimp only
    rw [List.length_append, List.length_singleton, ← List.drop_drop, ih, List.drop_one,
      List.tail_cons]

/-- The call is the one behind `n` others in block `k` of the function. -/
structure CallSite.IsCallAt (x : CallSite) (f : Ir.Function) (k n : Nat) : Prop where
  block_eq : f.blocks[k]? = some x.block
  split : ∃ done, x.block.instructions =
      done ++ .call x.result x.callee x.args x.ty x.returnBuffer :: x.todo ∧
    done.countP (·.isCall) = n

/-- **A call is set up where it stands**: in its block, behind as many calls as in the source. -/
theorem CallSite.IsSetUp.isCallAt {x : CallSite} {blocks : List Machine.Block}
    {before : List Instruction} {call : Instruction} (hx : x.IsSetUp c f blocks before call) :
    x.IsCallAt f blocks.length (before.countP (·.isCall)) := by
  constructor
  · have hdrop := hx.reaches.drop_blocks
    rw [hx.blocks_eq] at hdrop
    rw [← List.head?_drop, hdrop, List.head?_cons]
  · obtain ⟨done, hsplit, hdone⟩ := hx.reaches.exists_done
    have hstaging : Evolves IsInner (fun _ => True) x.reached.calling x.staged :=
      ((goes_placeArguments (fun _ hi _ _ => hi) x.callee _ _ {}).ok _ _ hx.places).1
    have hmoves : (x.moves c).countP (·.isCall) = 0 := by
      refine countP_eq_zero_of_forall fun i hi => ?_
      obtain ⟨p, -, rfl⟩ := List.mem_map.mp hi
      exact (flags_moveOf x.staged p).2
    have hcount : before.countP (·.isCall) = x.staged.callCount := by
      rw [hx.before_eq, List.countP_append, hmoves]
      rfl
    rw [hcount, callCount_of_evolves hstaging fun i hi => hi.not_call]
    exact ⟨done, hsplit, hdone⟩

variable {g : Machine.Function}

theorem exists_last_of_lowerFunction {t : Target} (h : lowerFunction t f = .ok g) :
    g.blocks = [] ∨ ∃ b s₁ s', Reaches ⟨t, f.name⟩ f [] b [] s₁ ∧
      (Scope.closeBlock b.name).run s₁ = .ok ((), s') ∧ g = s'.function := by
  obtain ⟨⟨_, s'⟩, hrun, h⟩ := bind_eq_ok.mp h
  cases h
  obtain ⟨_, s₀, hparams, hblocks⟩ := run_bind_eq_ok.mp hrun
  cases hf : f.blocks with
  | nil =>
    rw [hf] at hblocks
    cases hblocks
    exact .inl (blocks_of_parameterSteps (parameterSteps hparams))
  | cons b rest =>
    rw [hf] at hblocks
    obtain ⟨b', s₁, hreach, hclose⟩ := Reaches.last (.enter hf hparams) hblocks
    exact .inr ⟨b', s₁, s', hreach, hclose, rfl⟩

theorem Reaches.params_of_lowerFunction {t : Target} (hs : Reaches ⟨t, f.name⟩ f todo b rest s)
    (h : lowerFunction t f = .ok g) (hne : g.blocks ≠ []) : s.function.params = g.params := by
  rcases exists_last_of_lowerFunction h with hnil | ⟨b', s₁, s', hlast, hclose, rfl⟩
  · exact absurd hnil hne
  · obtain ⟨s₀, hs₀, hsame⟩ := hs.params_eq
    obtain ⟨s₀', hs₀', hsame'⟩ := hlast.params_eq
    cases hs₀.symm.trans hs₀'
    cases hclose
    exact hsame.trans hsame'.symm

/-- **Every call of a lowered function was set up**, and its parameters are those of the states that
lowering goes through. -/
theorem isSetUp_of_lowerFunction {t : Target} (h : lowerFunction t f = .ok g) {k : Nat}
    {block : Machine.Block} {before behind : List Instruction} {call : Instruction}
    (hblock : g.blocks[k]? = some block) (hsplit : block.instructions = before ++ call :: behind)
    (hcall : call.isCall) :
    ∃ x : CallSite, x.IsSetUp ⟨t, f.name⟩ f (g.blocks.take k) before call ∧
      x.reached.function.params = g.params := by
  rcases exists_last_of_lowerFunction h with hnil | ⟨b, s₁, s', hlast, hclose, rfl⟩
  · simp [hnil] at hblock
  · obtain ⟨x, hx⟩ := (hlast.arranged.close hclose).blocks k block before call behind hblock hsplit
      hcall
    exact ⟨x, hx, hx.reaches.params_of_lowerFunction h (List.ne_nil_of_mem
      (List.mem_of_getElem? hblock))⟩

end Lowering

end Retarget
