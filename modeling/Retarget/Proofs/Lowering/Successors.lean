import Retarget.Proofs.Execution.Dominance
import Retarget.Proofs.Lowering.Copies
import Retarget.Proofs.Lowering.Straight

/-!
# Lowering keeps control flow

A block ends with a jump, a branch or a return, or goes on to the block behind it.  Lowering leaves
out branches to the block behind, and decides those on constants, but where control goes from a
block stays the same (`way_turn_lowered`): the code before the terminator is straight, and the code
of the terminator leads to where the terminator does (`ends_lowerInstruction`).
-/

namespace Retarget

/-- Where control goes from a block: into a block, or out of the function. -/
inductive Way where
  | enter (block : Nat)
  | leave
deriving DecidableEq

/-- The way from block `k` to the block with a name, or to the block behind if there is no name. -/
def wayTo (names : List String) (k : Nat) : Option String → Option Way
  | some name => (names.findIdx? (· == name)).map .enter
  | none => if k + 1 < names.length then some (.enter (k + 1)) else none

theorem wayTo_next {names : List String} {k : Nat} {name : String} (h : names.Nodup)
    (hname : names[k + 1]? = some name) : wayTo names k (some name) = wayTo names k none := by
  obtain ⟨hlt, rfl⟩ := List.getElem?_eq_some_iff.mp hname
  have hfirst : names.findIdx? (· == names[k + 1]) = some (k + 1) := by
    refine List.findIdx?_eq_some_iff_getElem.mpr ⟨hlt, beq_self_eq_true _, fun j hj => ?_⟩
    rw [Bool.not_eq_true, beq_eq_false_iff_ne]
    exact fun heq => Nat.ne_of_lt hj (h.getElem_inj_iff.mp heq)
  rw [wayTo, wayTo, hfirst, if_pos hlt]
  rfl

theorem wayTo_filter {names : List String} (h : names.Nodup) (k : Nat) (target : Option String) :
    wayTo names k (target.filter fun name => some name != names[k + 1]?) =
      wayTo names k target := by
  cases target with
  | none => rfl
  | some name =>
    rw [Option.filter_some]
    split
    · rfl
    · next heq =>
      simp only [bne_iff_ne, ne_eq, not_not] at heq
      exact (wayTo_next h heq.symm).symm

namespace Ir

/-- Where control goes behind the instruction at the end of block `k`, if `truth?` says which values
are non-zero. -/
def Instruction.way (names : List String) (k : Nat) (truth? : Value → Option Bool) :
    Instruction → Option Way
  | jump target => wayTo names k (some target)
  | branch condition trueTarget falseTarget => (truth? condition).bind fun nonzero =>
    wayTo names k (if nonzero then some trueTarget else falseTarget)
  | ret _ => some .leave
  | _ => wayTo names k none

def Block.terminator? (b : Block) : Option Instruction := b.instructions.find? (·.isTerminator)

/-- The terminator is behind all other instructions if it can only be the last one. -/
theorem Block.exists_append_terminator? {b : Block}
    (hlast : ∀ i ∈ b.instructions.dropLast, i.isTerminator = false) :
    ∃ done, b.instructions = done ++ b.terminator?.toList ∧
      ∀ i ∈ done, i.isTerminator = false := by
  rw [terminator?]
  rcases List.eq_nil_or_concat b.instructions with hnil | ⟨done, i, hconcat⟩
  · exact ⟨[], by simp [hnil], by simp⟩
  rw [hconcat, List.concat_eq_append] at hlast ⊢
  rw [List.dropLast_concat] at hlast
  have hdone : done.find? (·.isTerminator) = none :=
    List.find?_eq_none.mpr fun i hi => by simp [hlast i hi]
  rw [List.find?_append, hdone, Option.none_or, List.find?_singleton]
  cases hi : i.isTerminator with
  | true => exact ⟨done, rfl, hlast⟩
  | false =>
    refine ⟨done ++ [i], (List.append_nil _).symm, fun j hj => ?_⟩
    exact (List.mem_append.mp hj).elim (hlast j) fun hj => List.mem_singleton.mp hj ▸ hi

def Function.names (f : Function) : List String := f.blocks.map (·.name)

/-- Where control goes from block `k`: its terminator says so, and without one control goes on. -/
def Function.wayFrom (f : Function) (k : Nat) (truth? : Value → Option Bool) : Option Way := do
  let b ← f.blocks[k]?
  match b.terminator? with
  | some i => i.way f.names k truth?
  | none => wayTo f.names k none

end Ir

/-! ## Code that is left at its end -/

namespace Machine

variable {M : Interpretation} {g : Function} {σ τ : State M} {is before ending : List Instruction}
  {i : Instruction} {k : Nat} {x : Option Exit}

def Function.names (g : Function) : List String := g.blocks.map (·.name)

def Progress.way : Progress M → Way
  | .running s => .enter s.block
  | .returned .. => .leave

def Function.wayOut (g : Function) (k : Nat) : Option Exit → Option Way
  | none => wayTo g.names k none
  | some (.jump name) => wayTo g.names k (some name)
  | some (.stop _) => some .leave

theorem Function.blockIndex?_eq (g : Function) (name : String) :
    g.blockIndex? name = g.names.findIdx? (· == name) := by
  rw [names, List.findIdx?_map]
  rfl

/-- A turn ends where the end of the block leads to. -/
theorem Function.way_turn (hcode : g.rest σ.block 0 = before ++ ending)
    (hrun : g.runCode before σ = some (none, τ)) :
    (g.turn σ).map Progress.way =
      (g.runCode ending τ).bind fun r => g.wayOut σ.block r.1 := by
  rw [turn, hcode, g.runCode_append, hrun]
  show Option.map _ ((g.runCode ending τ).bind _) = _
  cases g.runCode ending τ with
  | none => rfl
  | some r =>
    obtain ⟨x, τ'⟩ := r
    cases x with
    | none =>
      simp only [Option.bind_some, wayOut, wayTo, names, List.length_map]
      split <;> rfl
    | some x =>
      cases x with
      | jump name =>
        simp only [Option.bind_some, wayOut, wayTo, g.blockIndex?_eq, Option.map_map]
        rfl
      | stop value => rfl

theorem Executes.isExit {op : GenericOp} {args : List (Arg M.pointerBits)} {e : Effect M}
    (h : Executes g σ i op args e) : i.isExit = op.isExit := by
  rw [GenericOp.isExit, ← h.flags]
  rfl

theorem exit_of_runCode (his : ∀ i ∈ is, i.isExit = false) (h : g.runCode is σ = some (x, τ)) :
    x = none := by
  induction is generalizing σ with
  | nil =>
    cases h
    rfl
  | cons i is ih =>
    obtain ⟨hi, his⟩ := List.forall_mem_cons.mp his
    obtain ⟨e, he, h⟩ := Option.bind_eq_some_iff.mp h
    obtain ⟨⟨y, σ₁⟩, happly, h⟩ := Option.bind_eq_some_iff.mp h
    cases y with
    | none => exact ih his h
    | some y =>
      rw [Function.effectAt] at he
      split at he
      · split at he
        · obtain ⟨name, -, rfl⟩ := Option.map_eq_some_iff.mp he
          obtain ⟨_, -, happly⟩ := Option.map_eq_some_iff.mp happly
          cases happly
        · cases he
      · obtain ⟨op, args, hexec⟩ := effectOf_eq_some.mp he
        rw [hexec.isExit] at hi
        cases hexec.cases with
        | assign hdest hvalue =>
          obtain ⟨_, -, happly⟩ := Option.map_eq_some_iff.mp happly
          cases happly
        | jump hop => rcases hop with rfl | rfl <;> cases hi
        | stop hop => cases hop; cases hi
        | _ => cases happly

theorem isSome_of_mapM_eq_some {α β : Type} {F : α → Option β} {as : List α} {bs : List β}
    (h : as.mapM F = some bs) : ∀ a ∈ as, (F a).isSome := by
  induction as generalizing bs with
  | nil => simp
  | cons a as ih =>
    obtain ⟨b, bs', hb, hbs', -⟩ := mapM_cons_eq_some.mp h
    exact List.forall_mem_cons.mpr ⟨Option.isSome_of_eq_some hb, ih hbs'⟩

/-- Control does not leave a block at an instruction that reads what has no value. -/
theorem runCode_eq_none {op : GenericOp} {operands : List Operand} {o : Operand} (hop : op.isExit)
    (ho : o ∈ operands) (hnone : o.eval g.frame σ = none) :
    g.runCode [.generic op operands] σ = none := by
  have heffect : (Instruction.generic op operands).isEffect = true := by
    rw [GenericOp.isExit, Bool.or_eq_true] at hop
    show (op.flags.store || op.flags.ret || op.flags.jump || op.flags.call) = true
    rcases hop with hop | hop <;> simp [hop]
  cases he : g.effectOf σ (.generic op operands) with
  | none => rw [Function.runCode, g.effectAt_eq rfl, he]; rfl
  | some e =>
    obtain ⟨op', args, hexec⟩ := effectOf_eq_some.mp he
    have hargs := hexec.evaluates
    rw [Instruction.uses_of_isEffect heffect] at hargs
    have hread := isSome_of_mapM_eq_some hargs o ho
    rw [hnone] at hread
    cases hread

/-! ## What leads out of a block -/

theorem runCode_jump (g : Function) (σ : State M) (target : String) :
    g.runCode [.generic .jump [.label target]] σ = some (some (.jump target), σ) := rfl

theorem runCode_ret_value {o : Operand} {b : Bits} (ho : o.eval g.frame σ = some (.bits b)) :
    g.runCode [.generic .ret [o]] σ = some (some (.stop (some b)), σ) := by
  have heffect : g.effectAt σ (.generic .ret [o]) = some (.stop (some b)) := by
    rw [g.effectAt_eq rfl]
    exact effectOf_eq_some.mpr ⟨.ret, [.bits b], rfl, rfl, mapM₁_eq_some.mpr ⟨_, ho, rfl⟩, rfl⟩
  rw [Function.runCode, heffect]
  rfl

theorem exists_eval_of_isImmediate {o : Operand} (h : o.isImmediate) (frame : Frame)
    (σ : State M) : ∃ b, o.eval frame σ = some (.bits b) := by
  obtain ⟨kind, ty, regClass⟩ := o
  cases kind with
  | immediate v => exact ⟨_, rfl⟩
  | _ => cases h

theorem exit_of_straight_ret (his : ∀ i ∈ is, i.isExit = false) {r : Option Exit × State M}
    (h : g.runCode (is ++ [.generic .ret []]) σ = some r) : r.1 = some (.stop none) := by
  rw [g.runCode_append] at h
  obtain ⟨⟨x, τ⟩, hrun, h⟩ := Option.bind_eq_some_iff.mp h
  cases exit_of_runCode his hrun
  cases h
  rfl

theorem effectAt_branch {o : Operand} {b : Bits} {target : String} {otherwise : Option String}
    (ho : o.eval g.frame σ = some (.bits b)) :
    g.effectAt σ (.generic .branch (o :: .label target :: otherwise.toList.map .label)) =
      some (if b.value = 0 then otherwise.elim .skip .jump else .jump target) := by
  rw [g.effectAt_eq rfl]
  refine effectOf_eq_some.mpr ⟨.branch, .bits b :: .label target :: otherwise.toList.map .label,
    rfl, rfl, ?_, ?_⟩
  · cases otherwise with
    | none => exact mapM₂_eq_some.mpr ⟨_, _, ho, rfl, rfl⟩
    | some name =>
      exact mapM_cons_eq_some.mpr ⟨_, _, ho, mapM₂_eq_some.mpr ⟨_, _, rfl, rfl, rfl⟩, rfl⟩
  · cases otherwise with
    | none => rfl
    | some name =>
      show some (Effect.jump (if b.value = 0 then name else target)) = _
      split <;> rfl

/-- A branch goes to its first target if the condition is non-zero, and to its second target or on
if it is zero. -/
theorem wayOut_branch {o : Operand} {b? : Option Bits} {target : String} {otherwise : Option String}
    (ho : o.eval g.frame σ = b?.map .bits) :
    ((g.runCode [.generic .branch (o :: .label target :: otherwise.toList.map .label)] σ).bind
      fun r => g.wayOut k r.1) =
      b?.bind fun b => wayTo g.names k (if b.value != 0 then some target else otherwise) := by
  cases b? with
  | none =>
    rw [runCode_eq_none rfl List.mem_cons_self ho]
    rfl
  | some b =>
    rw [Function.runCode, effectAt_branch ho, Option.bind_some]
    by_cases hzero : b.value = 0
    · rw [if_pos hzero, if_neg (by simp [hzero])]
      cases otherwise <;> rfl
    · rw [if_neg hzero, if_pos (bne_iff_ne.mpr hzero)]
      rfl

end Machine

namespace Lowering

open Machine

variable {M : Interpretation} {c : Scope} {s s' s₁ : State} {f : Ir.Function} {g : Machine.Function}
  {i : Ir.Instruction} {names : List String} {k : Nat} {v : Ir.Value} {o : Operand}
  {before code : List Instruction} {b : Ir.Block} {t : Target}

/-- Whether a value is non-zero: a constant is the number that it is written as, and any other value
is what it stands for. -/
def State.truth? (c : Scope) (s : State) (σ : Machine.State M) : Ir.Value → Option Bool
  | .constant n _ => some (n != 0)
  | v => (s.bits? c σ v).map fun b => b.value != 0

theorem State.truth?_of_ne_constant (hv : ∀ n ty, v ≠ .constant n ty) (s : State)
    (σ : Machine.State M) : s.truth? c σ v = (s.bits? c σ v).map fun b => b.value != 0 := by
  cases v with
  | constant n ty => exact absurd rfl (hv n ty)
  | _ => rfl

/-! ## Terminators -/

/-- A piece of an aggregate has no bits: a register that one is in holds too few, or the pieces are
in memory, at no place or at the end of a frame object that is too small. -/
def State.LacksPiece (c : Scope) (s : State) (frame : Frame) (σ : Machine.State M)
    (v : Ir.Value) : Prop :=
  match s.homeRegisters? v with
  | some home => ∃ e ∈ home.zip c.target.convention.results,
      readRegister σ e.1.1 e.1.2.ty = none
  | none => ∃ bytes, v.ty.size c.target.pointerBytes = .ok bytes ∧ 0 < bytes ∧
      (s.points? c σ v = none ∨
        ∃ slot size, s.frameObject? v = some slot ∧ frame.objectSize? slot = some size ∧
          size < bytes)

/-- The function returns a value that has no bits, or an aggregate that lacks a piece. -/
def LacksResult (c : Scope) (s : State) (frame : Frame) (σ : Machine.State M)
    (i : Option Ir.Instruction) : Prop :=
  ∃ v, i = some (.ret (some v)) ∧
    if v.ty.isAggregate then s.LacksPiece c frame σ v else s.bits? c σ v = none

/-- The instruction at the end of block `k` is lowered to `code`, and from there control goes where
the instruction leads. -/
structure Ends (c : Scope) (names : List String) (k : Nat) (i : Ir.Instruction) (s s' : State)
    (code : List Instruction) : Prop where
  code_eq : s'.code.toList = s.code.toList ++ code
  way : ∀ {M : Interpretation} {g : Machine.Function}, M.pointerBits = c.target.pointerBits →
    s.Framed g → g.names = names → ∀ σ : Machine.State M,
      ((g.runCode code σ).bind fun r => g.wayOut k r.1) = i.way names k (s'.truth? c σ) ∨
      g.runCode code σ = none ∧ LacksResult c s' g.frame σ (some i)

theorem run_lowerJumpUnless (next target : Option String) (s : State) :
    (Scope.lowerJumpUnless next target).run s =
      .ok ((), s.append ((target.filter fun name => some name != next).toList.map
        fun name => .generic .jump [.label name])) := by
  rw [Scope.lowerJumpUnless]
  cases target.filter fun name => some name != next with
  | none => simp [State.append]; rfl
  | some name => exact run_emit _ _

theorem ends_lowerBranch {condition : Ir.Value} {trueTarget : String} {falseTarget : Option String}
    (hnames : names.Nodup) (hs : Tracked c.target s)
    (h : (c.lowerBranch condition trueTarget falseTarget names[k + 1]?).run s = .ok ((), s')) :
    ∃ code, Ends c names k (.branch condition trueTarget falseTarget) s s' code := by
  unfold Scope.lowerBranch at h
  split at h
  · next n ty =>
    rw [run_lowerJumpUnless] at h
    cases h
    refine ⟨_, State.code_append _ _, fun {M g} _ _ hg σ => .inl ?_⟩
    subst hg
    show _ = wayTo g.names k (if n != 0 then some trueTarget else falseTarget)
    rw [← wayTo_filter hnames k (if n != 0 then some trueTarget else falseTarget)]
    cases (if n != 0 then some trueTarget else falseTarget).filter _ <;> rfl
  · next hvalue =>
    obtain ⟨o, s₁, hoperand, h⟩ := run_bind_eq_ok.mp h
    obtain ⟨code, heval⟩ := evaluates_operand hs hoperand
    dsimp only at h
    rw [run_emit] at h
    cases h
    refine ⟨_, by rw [State.code_append, heval.code_eq, List.append_assoc],
      fun {M g} hM hframed hg σ => .inl ?_⟩
    subst hg
    obtain ⟨τ, hrun, -, ho⟩ := heval.exists_eval hs hM hframed (.append s₁ _) σ
    rw [runCode_append_eq hrun, wayOut_branch ho, Ir.Instruction.way,
      State.truth?_of_ne_constant hvalue]
    -- with the second target left out where it is the block behind
    cases State.bits? c _ σ condition with
    | none => rfl
    | some b =>
      show wayTo g.names k _ = wayTo g.names k (if b.value != 0 then some trueTarget else _)
      split
      · rfl
      · exact wayTo_filter hnames k falseTarget

/-- A piece that can be moved into a physical register. -/
inductive Movable (frame : Frame) (σ : Machine.State M) : Operand × Operand → Prop
  | register {root r : RegId} {ty : LowType} {b : Bits} (h : readRegister σ r ty = some b) :
    Movable frame σ (.physicalReg root ty, .virtualReg r ty)
  | place {root : RegId} {ty : LowType} {o : Operand} {a : BitVec M.pointerBits}
    (h : o.place? σ = some a) (hin : o.InBounds frame (byteCount ty.bits)) :
    Movable frame σ (.physicalReg root ty, o)

theorem isExit_intoInstruction (dest source : Operand) :
    (intoInstruction dest source).isExit = false := by
  obtain ⟨op, hop, hinto⟩ := exists_intoInstruction_eq dest source
  rw [hinto]
  simp only [List.mem_cons, List.not_mem_nil, or_false] at hop
  rcases hop with rfl | rfl | rfl <;> rfl

theorem isMemory_of_place? {σ : Machine.State M} {a : BitVec M.pointerBits}
    (h : o.place? σ = some a) : (o.isMemory || o.isStack) = true := by
  obtain ⟨kind, ty, regClass⟩ := o
  cases kind with
  | memory base offset => rfl
  | stack slot offset => rfl
  | _ => cases h

/-- Moving a piece changes physical registers only. -/
theorem Movable.runCode {part : Operand × Operand} {σ : Machine.State M} {is : List Instruction}
    (h : Movable g.frame σ part) : ∃ σ', σ'.regs = σ.regs ∧
      g.runCode (intoInstruction part.1 part.2 :: is) σ = g.runCode is σ' := by
  cases h with
  | @register root r ty b h =>
    obtain ⟨w, hw, rfl⟩ := Option.map_eq_some_iff.mp h
    have hop : (moveOp ty).defines := by
      rw [moveOp]
      split <;> rfl
    have hproduce : produce (moveOp ty) none ty.bits σ.memory [.bits ⟨ty.bits, w⟩] = some w := by
      rw [moveOp]
      split <;> exact congrArg some (BitVec.setWidth_eq w)
    have hread : (Operand.virtualReg r ty).eval g.frame σ = some (.bits ⟨ty.bits, w⟩) := by
      rw [eval_virtualReg, h]
      rfl
    exact ⟨σ.writePhysical root ⟨ty.bits, w⟩, rfl, (computes_emitted hop _ _).runCode_eq
      (mapM₁_eq_some.mpr ⟨_, hread, rfl⟩) hproduce rfl⟩
  | @place root ty o a h hin =>
    obtain ⟨room, heval, hroom⟩ := eval_of_place? h hin
    rw [intoInstruction, if_pos (isMemory_of_place? h)]
    exact ⟨σ.writePhysical root ⟨ty.bits, σ.memory.loadBits a ty.bits⟩, rfl,
      (computes_emitted rfl _ _).runCode_eq (mapM₁_eq_some.mpr ⟨_, heval, rfl⟩) (if_pos hroom) rfl⟩

theorem Movable.congr {frame : Frame} {part : Operand × Operand} {σ σ' : Machine.State M}
    (h : Movable frame σ part) (hregs : σ'.regs = σ.regs) : Movable frame σ' part := by
  cases h with
  | register h => exact .register (by rwa [readRegister, hregs])
  | place h hin => exact .place ((place?_congr fun x _ => congrFun hregs x).trans h) hin

theorem exists_run_moves {parts : List (Operand × Operand)} {σ : Machine.State M}
    (h : ∀ part ∈ parts, Movable g.frame σ part) :
    ∃ σ', g.runCode (parts.map fun part => intoInstruction part.1 part.2) σ = some (none, σ') := by
  induction parts generalizing σ with
  | nil => exact ⟨σ, rfl⟩
  | cons part parts ih =>
    obtain ⟨hpart, hparts⟩ := List.forall_mem_cons.mp h
    obtain ⟨σ₁, hregs, hrun⟩ := hpart.runCode
    obtain ⟨σ', hrest⟩ := ih fun part hmem => (hparts part hmem).congr hregs
    exact ⟨σ', hrun.trans hrest⟩

/-- The memory that a value points to is in a frame object only if the value is its address. -/
theorem spans_location {frame : Frame} {ty : LowType} {n : Nat}
    (h : (c.location v ty).run s = .ok (o, s₁))
    (hobject : ∀ slot, s.frameObject? v = some slot →
      ∃ size, frame.objectSize? slot = some size ∧ n ≤ size) : o.Spans frame n := by
  rw [Scope.location, run_get_bind] at h
  cases hslot : s.frameObject? v with
  | some slot =>
    rw [hslot] at h
    cases h
    obtain ⟨size, hsize, hle⟩ := hobject slot hslot
    exact ⟨size, hsize, Int.le_refl 0, by omega⟩
  | none =>
    rw [hslot] at h
    dsimp only at h
    split at h
    · cases h
    · obtain ⟨base, s₂, -, h⟩ := run_bind_eq_ok.mp h
      split at h <;> cases h
      trivial

theorem exists_objectSize? {slot : Slot} (h : slot ∈ g.slots) :
    ∃ size, g.frame.objectSize? slot = some size := by
  have hroom := room?_isSome h 0
  rw [Frame.room?, Option.isSome_map] at hroom
  exact Option.isSome_iff_exists.mp hroom

/-- The pieces of an aggregate that lacks none can be moved behind the code that finds them. -/
theorem exists_movable_parts {parts : List (Operand × Operand)} (hs : Tracked c.target s)
    (h : (c.aggregateParts v c.target.convention.results).run s = .ok (parts, s₁))
    (hcode : s₁.code.toList = s.code.toList ++ code) {M : Interpretation} {g : Machine.Function}
    (hM : M.pointerBits = c.target.pointerBits) (hframed : s.Framed g) (σ : Machine.State M)
    (hs' : s₁.Continues s') (hlacks : ¬s'.LacksPiece c g.frame σ v) :
    ∃ σ₁, g.runCode code σ = some (none, σ₁) ∧ ∀ part ∈ parts, Movable g.frame σ₁ part := by
  obtain ⟨bytes, hsize, -, ⟨home, hhome, rfl, rfl⟩ | ⟨hmemory, location, hlocation, rfl⟩⟩ :=
    run_aggregateParts_eq_ok.mp h
  · rw [State.LacksPiece, hs'.same.homeRegisters?, hhome] at hlacks
    cases List.self_eq_append_right.mp hcode
    refine ⟨σ, rfl, List.forall_mem_map.mpr fun e he => ?_⟩
    obtain ⟨b, hb⟩ := Option.ne_none_iff_exists'.mp fun hnone => hlacks ⟨e, he, hnone⟩
    exact .register hb
  · obtain ⟨hle, -, -, code', hcode', hrun⟩ := exists_location hs hlocation
    cases List.append_cancel_left (hcode.symm.trans hcode')
    obtain ⟨σ₁, hfetched, -, hplace⟩ := hrun hM hframed σ
    have hsame := (hle.trans hs').same
    rw [State.LacksPiece, hsame.homeRegisters?, hmemory] at hlacks
    refine ⟨σ₁, hfetched, List.forall_mem_map.mpr fun e he => ?_⟩
    obtain ⟨j, size, hpiece, hpos, hend⟩ := exists_of_mem_piecesFrom (List.of_mem_zip he).1
    -- there is a piece, so the aggregate is at a place, and not at the end of a small frame object
    obtain ⟨a, ha⟩ : ∃ a, s'.points? c σ v = some a := Option.ne_none_iff_exists'.mp fun hnone =>
      hlacks ⟨bytes, hsize, by omega, .inl hnone⟩
    have hspans : location.Spans g.frame bytes := spans_location hlocation fun slot hslot => by
      obtain ⟨size, hobject⟩ := exists_objectSize? (hframed v slot hslot)
      refine ⟨size, hobject, Nat.not_lt.mp fun hlt => hlacks ⟨bytes, hsize, by omega, .inr ?_⟩⟩
      exact ⟨slot, size, by rw [hsame.frameObject?, hslot], hobject, hlt⟩
    have hin := inBounds_piece hspans (by omega : j + size ≤ bytes)
    refine .place (place?_piece e.1 (hplace s' a hs' ha)) ?_
    rw [hpiece]
    show Operand.InBounds _ _ (byteCount (size * 8))
    rwa [show byteCount (size * 8) = size by rw [byteCount]; omega]

theorem ends_ret_aggregate (haggregate : v.ty.isAggregate)
    (hcode : s'.code.toList = s.code.toList ++ (before ++ [.generic .ret []]))
    (hstraight : ∀ j ∈ before, j.isExit = false)
    (hruns : ∀ {M : Interpretation} {g : Machine.Function},
      M.pointerBits = c.target.pointerBits → s.Framed g → ∀ σ : Machine.State M,
        ¬s'.LacksPiece c g.frame σ v → ∃ σ₁, g.runCode before σ = some (none, σ₁)) :
    Ends c names k (.ret (some v)) s s' (before ++ [.generic .ret []]) := by
  refine ⟨hcode, fun {M g} hM hframed _ σ => ?_⟩
  cases hrun : g.runCode (before ++ [.generic .ret []]) σ with
  | none =>
    refine .inr ⟨rfl, v, rfl, ?_⟩
    rw [if_pos haggregate]
    by_contra hlacks
    obtain ⟨σ₁, hbefore⟩ := hruns hM hframed σ hlacks
    rw [runCode_append_eq hbefore] at hrun
    cases hrun
  | some r =>
    left
    rw [Option.bind_some, exit_of_straight_ret hstraight hrun]
    rfl

theorem ends_ret_immediate (hs : Tracked c.target s) (heval : Evaluates c s s₁ v o code)
    (himmediate : o.isImmediate) (root : RegId) (ty : LowType) :
    Ends c names k (.ret (some v)) s
      (s₁.append [.generic .loadImm [c.physical root ty, o], .generic .ret []])
      (code ++ [.generic .loadImm [c.physical root ty, o], .generic .ret []]) := by
  refine ⟨by rw [State.code_append, heval.code_eq, List.append_assoc],
    fun {M g} hM hframed _ σ => .inl ?_⟩
  obtain ⟨τ, hrun, -, -⟩ := heval.exists_eval hs hM hframed (.refl s₁) σ
  obtain ⟨b, hb⟩ := exists_eval_of_isImmediate himmediate g.frame τ
  rw [runCode_append_eq hrun, (computes_emitted rfl _ _).runCode_eq
    (mapM₁_eq_some.mpr ⟨_, hb, rfl⟩) rfl rfl]
  rfl

theorem ends_ret_operand (hscalar : ¬v.ty.isAggregate) (hs : Tracked c.target s)
    (heval : Evaluates c s s₁ v o code) :
    Ends c names k (.ret (some v)) s (s₁.append [.generic .ret [o]])
      (code ++ [.generic .ret [o]]) := by
  refine ⟨by rw [State.code_append, heval.code_eq, List.append_assoc],
    fun {M g} hM hframed _ σ => ?_⟩
  obtain ⟨τ, hrun, -, ho⟩ := heval.exists_eval hs hM hframed (.append s₁ _) σ
  rw [runCode_append_eq hrun]
  cases hb : State.bits? c _ σ v with
  | none =>
    rw [hb] at ho
    exact .inr ⟨runCode_eq_none rfl List.mem_cons_self ho, v, rfl, by rwa [if_neg hscalar]⟩
  | some b =>
    rw [hb] at ho
    rw [runCode_ret_value ho]
    exact .inl rfl

theorem ends_lowerReturn {value : Option Ir.Value} (hs : Tracked c.target s)
    (h : (c.lowerReturn value).run s = .ok ((), s')) :
    ∃ code, Ends c names k (.ret value) s s' code := by
  cases value with
  | none =>
    rw [Scope.lowerReturn, run_emit] at h
    cases h
    exact ⟨_, State.code_append _ _, fun _ _ _ σ => .inl rfl⟩
  | some value =>
    dsimp only [Scope.lowerReturn] at h
    split at h
    · next haggregate =>
      obtain ⟨fits, s₁, hfits, hrest⟩ := run_bind_eq_ok.mp h
      obtain ⟨-, -, -, rfl, -⟩ := run_fitsRegisters_eq_ok.mp hfits
      split at hrest
      · cases hrest
      · obtain ⟨parts, s₂, hparts, hreturn⟩ := run_bind_eq_ok.mp hrest
        obtain ⟨_, s₃, hmoves, hemit⟩ := run_bind_eq_ok.mp hreturn
        rw [run_emit] at hemit
        cases hemit
        rw [run_forM_emit fun part _ _ => run_emitInto part.1 part.2] at hmoves
        cases hmoves
        obtain ⟨code, hcode, hstraight⟩ := (flows_aggregateParts _ _).ok _ _ _ hparts
        rw [State.append_append]
        refine ⟨(code ++ parts.map fun part => intoInstruction part.1 part.2) ++ [.generic .ret []],
          ends_ret_aggregate haggregate ?_ ?_ fun {M g} hM hframed σ hlacks => ?_⟩
        · rw [State.code_append, hcode, List.append_assoc, List.append_assoc]
        · exact List.forall_mem_append.mpr ⟨hstraight, List.forall_mem_map.mpr fun part _ =>
            isExit_intoInstruction part.1 part.2⟩
        · obtain ⟨σ₁, hfetched, hmovable⟩ :=
            exists_movable_parts hs hparts hcode hM hframed σ (.append s₂ _) hlacks
          rw [runCode_append_eq hfetched]
          exact exists_run_moves hmovable
    · next hscalar =>
      obtain ⟨o, s₁, hoperand, hrest⟩ := run_bind_eq_ok.mp h
      obtain ⟨code, heval⟩ := evaluates_operand hs hoperand
      split at hrest
      · next himmediate =>
        obtain ⟨root, s₂, hroot, hreturn⟩ := run_bind_eq_ok.mp hrest
        obtain ⟨-, rfl⟩ := run_check_eq_ok.mp hroot
        obtain ⟨_, s₃, hload, hemit⟩ := run_bind_eq_ok.mp hreturn
        rw [run_emit] at hload hemit
        cases hload
        cases hemit
        rw [State.append_append]
        exact ⟨_, ends_ret_immediate hs heval himmediate root o.ty⟩
      · rw [run_emit] at hrest
        cases hrest
        exact ⟨_, ends_ret_operand hscalar hs heval⟩

/-- **A terminator is lowered to code that leads where it does.** -/
theorem ends_lowerInstruction (hnames : names.Nodup) (hs : Tracked c.target s)
    (hi : i.isTerminator) (h : (c.lowerInstruction names[k + 1]? i).run s = .ok ((), s')) :
    ∃ code, Ends c names k i s s' code := by
  cases i with
  | jump target =>
    rw [Scope.lowerInstruction, run_emit] at h
    cases h
    refine ⟨_, State.code_append _ _, fun {M g} _ _ hg σ => .inl ?_⟩
    rw [runCode_jump, ← hg]
    rfl
  | branch condition trueTarget falseTarget => exact ends_lowerBranch hnames hs h
  | ret value => exact ends_lowerReturn hs h
  | _ => cases hi

/-! ## Blocks -/

/-- Behind the code of state `s`, which is straight, control goes from the code of block `k` where
it goes from the block.  Only a missing result may keep it from this. -/
structure LeavesAlike (c : Scope) (f : Ir.Function) (g : Machine.Function) (k : Nat) (b : Ir.Block)
    (s s' : State) : Prop where
  straight : ∀ i ∈ s.code.toList, i.isExit = false
  way : ∀ {M : Interpretation}, M.pointerBits = c.target.pointerBits →
    ∀ σ σ₁ : Machine.State M, σ.block = k → g.runCode s.code.toList σ = some (none, σ₁) →
      (g.turn σ).map Progress.way = f.wayFrom k (s'.truth? c σ₁) ∨
      g.turn σ = none ∧ LacksResult c s' g.frame σ₁ b.terminator?
  arrives : ∀ {M : Interpretation} (σ : Machine.State M) (p : Progress M), σ.block = k →
    g.turn σ = some p → ∃ σ₁, g.runCode s.code.toList σ = some (none, σ₁)

theorem exists_of_turn {σ : Machine.State M} {p : Progress M}
    (hstraight : ∀ i ∈ before, i.isExit = false) (hcode : g.rest σ.block 0 = before ++ code)
    (h : g.turn σ = some p) : ∃ σ₁, g.runCode before σ = some (none, σ₁) := by
  obtain ⟨⟨x, σ'⟩, hrun, -⟩ := Option.bind_eq_some_iff.mp h
  rw [hcode, g.runCode_append] at hrun
  obtain ⟨⟨y, τ⟩, hbefore, -⟩ := Option.bind_eq_some_iff.mp hrun
  cases exit_of_runCode hstraight hbefore
  exact ⟨τ, hbefore⟩

theorem leavesAlike_straight (hnames : g.names = f.names) (hb : f.blocks[k]? = some b)
    (hblock : g.blocks[k]? = some ⟨b.name, s.code.toList⟩)
    (hnone : b.terminator? = none) (hstraight : ∀ i ∈ s.code.toList, i.isExit = false) :
    LeavesAlike c f g k b s s' := by
  have hcode : g.rest k 0 = s.code.toList ++ [] := by
    rw [Function.rest, hblock, List.append_nil]
    rfl
  refine ⟨hstraight, fun _ σ σ₁ hσ hrun => .inl ?_, fun σ p hσ hturn => ?_⟩
  · subst hσ
    rw [g.way_turn hcode hrun, Ir.Function.wayFrom, hb, Option.bind_eq_bind, Option.bind_some,
      hnone, ← hnames]
    rfl
  · subst hσ
    exact exists_of_turn hstraight hcode hturn

theorem Ends.leavesAlike (h : Ends c f.names k i s s' code) (hnames : g.names = f.names)
    (hg : s.Framed g) (hb : f.blocks[k]? = some b)
    (hblock : g.blocks[k]? = some ⟨b.name, s'.code.toList⟩) (hi : b.terminator? = some i)
    (hstraight : ∀ i ∈ s.code.toList, i.isExit = false) : LeavesAlike c f g k b s s' := by
  have hcode : g.rest k 0 = s.code.toList ++ code := by
    rw [Function.rest, hblock, ← h.code_eq]
    rfl
  refine ⟨hstraight, fun hM σ σ₁ hσ hrun => ?_, fun σ p hσ hturn => ?_⟩
  · subst hσ
    rw [g.way_turn hcode hrun, Ir.Function.wayFrom, hb, Option.bind_eq_bind, Option.bind_some, hi]
    refine (h.way hM hg hnames σ₁).imp_right fun hstuck => ⟨?_, hstuck.2⟩
    rw [← Option.map_eq_none_iff, g.way_turn hcode hrun, hstuck.1]
    rfl
  · subst hσ
    exact exists_of_turn hstraight hcode hturn

/-- **Lowering preserves control flow.**  Blocks keep their names and their order.  From the code of
a block, control goes on to the block that the source goes to, and returns when the source does,
whatever the condition is. -/
theorem way_turn_lowered (h : lowerFunction t f = .ok g) (hnames : f.names.Nodup)
    (hlast : ∀ b ∈ f.blocks, ∀ i ∈ b.instructions.dropLast, i.isTerminator = false) :
    g.names = f.names ∧ ∀ k b, f.blocks[k]? = some b → ∃ s s',
      Reaches ⟨t, f.name⟩ f b.terminator?.toList b (f.blocks.drop (k + 1)) s ∧
      Reaches ⟨t, f.name⟩ f [] b (f.blocks.drop (k + 1)) s' ∧
      g.blocks[k]? = some ⟨b.name, s'.code.toList⟩ ∧
      LeavesAlike ⟨t, f.name⟩ f g k b s s' := by
  have hsame : g.names = f.names := names_of_lowerFunction h
  refine ⟨hsame, fun k b hb => ?_⟩
  obtain ⟨s₀, s', hcloses⟩ := exists_lowered_block h hb
  obtain ⟨hreaches, hrun, hblock, hslots⟩ := hcloses
  have hend : Reaches ⟨t, f.name⟩ f [] b (f.blocks.drop (k + 1)) s' := hreaches.forM hrun
  have hnext : (f.blocks.drop (k + 1)).head?.map (·.name) = f.names[k + 1]? := by
    rw [List.head?_drop, Ir.Function.names, List.getElem?_map]
  obtain ⟨done, hinstructions, hdone⟩ :=
    b.exists_append_terminator? (hlast b (List.mem_of_getElem? hb))
  rw [hinstructions] at hreaches hrun
  obtain ⟨s, hs, hlower⟩ := exists_split_of_forM hreaches hrun
  have hstraight := hs.straight fun done' hdone' =>
    List.append_cancel_right (hinstructions.symm.trans hdone') ▸ hdone
  refine ⟨s, s', hs, hend, hblock, ?_⟩
  cases hi : b.terminator? with
  | none =>
    rw [hi] at hlower
    cases hlower
    exact leavesAlike_straight hsame hb hblock hi hstraight
  | some i =>
    rw [hi, Option.toList_some, List.forM, hnext] at hlower
    obtain ⟨_, s₁, hlower, hnil⟩ := run_bind_eq_ok.mp hlower
    cases hnil
    have hterminator : i.isTerminator := List.find?_some hi
    obtain ⟨code, hends⟩ := ends_lowerInstruction hnames hs.tracked hterminator hlower
    have hgrows := (grows_lowerInstruction hs.sound hlower rfl).1
    have hframed := hs.sound.framed (List.Subset.trans hgrows.slots hslots)
    exact hends.leavesAlike hsame hframed hb hblock hi hstraight

/-- A branch without a second target, one on a constant to the block behind, and a return. -/
def chooser : Ir.Function where
  name := "f"
  returnType := .int 32 true
  parameters := [⟨"n", .int 32 true, false⟩]
  blocks := [
    ⟨"entry", [.branch (.param "n" (.int 32 true)) "done" none]⟩,
    ⟨"more", [.branch (.constant 0 (.int 32 true)) "more" (some "done")]⟩,
    ⟨"done", [.ret (some (.param "n" (.int 32 true)))]⟩]

/-- Addresses and physical registers that mean nothing. -/
def blank : Interpretation where
  pointerBits := 32
  base _ := 0
  symbol _ := 0
  Physical := Unit
  readPhysical _ _ _ := some 0
  writePhysical _ _ _ := ()
  float _ _ _ _ := 0
  call _ _ memory _ := (memory, ())

/-- At the entry, with five in every register. -/
def counting : Machine.State blank := ⟨0, 0, fun _ => some ⟨32, 5⟩, (), fun _ => 0, []⟩

theorem way_turn_chooser : ∃ g, lowerFunction .riscv32 chooser = .ok g ∧
    (g.turn counting).map Progress.way = some (.enter 2) ∧ g.names = chooser.names ∧
    ∀ k b, chooser.blocks[k]? = some b → ∃ s s',
      Reaches ⟨.riscv32, "f"⟩ chooser b.terminator?.toList b (chooser.blocks.drop (k + 1)) s ∧
      Reaches ⟨.riscv32, "f"⟩ chooser [] b (chooser.blocks.drop (k + 1)) s' ∧
      g.blocks[k]? = some ⟨b.name, s'.code.toList⟩ ∧
      LeavesAlike ⟨.riscv32, "f"⟩ chooser g k b s s' := by
  have hturn : ((lowerFunction .riscv32 chooser).toOption.bind fun g =>
      (g.turn counting).map Progress.way) = some (.enter 2) := by decide +kernel
  cases hg : lowerFunction .riscv32 chooser with
  | error e =>
    rw [hg] at hturn
    cases hturn
  | ok g =>
    rw [hg] at hturn
    exact ⟨g, rfl, hturn, way_turn_lowered hg (by decide) (by decide)⟩

end Lowering

end Retarget
