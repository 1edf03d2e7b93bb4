import Retarget.Proofs.ControlFlow
import Retarget.Proofs.Execution.Semantics
import Retarget.Proofs.Shape.Basic

/-!
# What a step can do

An instruction that has an effect is generic, has the flags of its operation and evaluates what it
uses (`Executes`), and `effect_cases` lists what its effect can be.  Two states that differ in
registers which nobody reads have the same effects (`Agree.executes`), and these keep them in
agreement (`Agree.perform`).
-/

namespace Retarget.Machine

variable {M : Interpretation} {f g : Function} {s t : State M} {i j : Instruction} {op : GenericOp}
  {args : List (Arg M.pointerBits)} {e : Effect M}

/-! ## Effects -/

/-- What an effect comes from. -/
inductive Effect.From (op : GenericOp) (relation : Option Relation) (dest : Option Operand)
    (memory : Memory M.pointerBits) (args : List (Arg M.pointerBits)) : Effect M → Prop
  | assign {d : Operand} {w : BitVec d.size} (hdest : dest = some d)
      (hvalue : produce op relation d.size memory args = some w) :
      From op relation dest memory args (.assign d ⟨d.size, w⟩)
  | store {address : BitVec M.pointerBits} {room : Option Nat} {a : Arg M.pointerBits}
      {value : Bits} (hop : op = .store) (hargs : args = [.place address room, a])
      (hbits : a.toBits M = some value) (hroom : hasRoom room value.width) :
      From op relation dest memory args (.store address value)
  | jump {name : String} (hop : op = .jump ∨ op = .branch) (hname : Arg.label name ∈ args) :
      From op relation dest memory args (.jump name)
  | skip (hop : op = .branch) (hargs : args.length = 2) : From op relation dest memory args .skip
  | call {callee : Arg M.pointerBits} (hop : op = .call) :
      From op relation dest memory args (.call callee)
  | stop {value : Option Bits} (hop : op = .ret) : From op relation dest memory args (.stop value)

theorem effect_cases {relation : Option Relation} {dest : Option Operand}
    {memory : Memory M.pointerBits} (h : effect op relation dest memory args = some e) :
    e.From op relation dest memory args := by
  unfold effect at h
  split at h
  · next address room a =>
    obtain ⟨value, hvalue, h⟩ := Option.bind_eq_some_iff.mp h
    split at h
    · next hroom =>
      cases h
      exact .store rfl rfl hvalue hroom
    · cases h
  · cases h
    exact .jump (.inl rfl) (by simp)
  · obtain ⟨value, -, h⟩ := Option.bind_eq_some_iff.mp h
    cases h
    split
    · exact .skip rfl rfl
    · exact .jump (.inr rfl) (by simp)
  · obtain ⟨value, -, h⟩ := Option.bind_eq_some_iff.mp h
    cases h
    refine .jump (.inr rfl) ?_
    split <;> simp
  · cases h
    exact .call rfl
  · cases h
    exact .stop rfl
  · obtain ⟨value, -, h⟩ := Option.bind_eq_some_iff.mp h
    cases h
    exact .stop rfl
  · obtain ⟨d, hd, h⟩ := Option.bind_eq_some_iff.mp h
    obtain ⟨w, hw, h⟩ := Option.bind_eq_some_iff.mp h
    cases h
    exact .assign hd hw

/-- The instruction is generic, has the flags of its operation and has the effect. -/
structure Executes (f : Function) (s : State M) (i : Instruction) (op : GenericOp)
    (args : List (Arg M.pointerBits)) (e : Effect M) : Prop where
  generic : i.generic? = some op
  flags : i.flags.plain = op.flags
  evaluates : i.uses.mapM (·.eval f.frame s) = some args
  effect : effect op i.relation i.def? s.memory args = some e

theorem of_guard_eq_some {P : Prop} [Decidable P] {u : Unit} (h : guard P = some u) : P := by
  unfold guard at h
  split at h
  · assumption
  · cases h

theorem effectOf_eq_some : f.effectOf s i = some e ↔ ∃ op args, Executes f s i op args e := by
  constructor
  · intro h
    obtain ⟨op, hop, h⟩ := Option.bind_eq_some_iff.mp h
    obtain ⟨_, hflags, h⟩ := Option.bind_eq_some_iff.mp h
    obtain ⟨args, hargs, h⟩ := Option.bind_eq_some_iff.mp h
    exact ⟨op, args, hop, of_guard_eq_some hflags, hargs, h⟩
  · rintro ⟨op, args, hop, hflags, hargs, h⟩
    refine Option.bind_eq_some_iff.mpr ⟨op, hop, Option.bind_eq_some_iff.mpr ⟨(), ?_, ?_⟩⟩
    · exact if_pos hflags
    · exact Option.bind_eq_some_iff.mpr ⟨args, hargs, h⟩

namespace Executes

theorem opcode_eq (h : Executes f s i op args e) : i.opcode = .generic op := by
  have hop := h.generic
  rw [Instruction.generic?] at hop
  cases hcode : i.opcode with
  | generic op' =>
    rw [hcode] at hop
    cases hop
    rfl
  | native n =>
    rw [hcode] at hop
    cases hop

theorem isGeneric (h : Executes f s i op args e) (op' : GenericOp) :
    i.isGeneric op' = (op == op') := by
  rw [Instruction.isGeneric, h.opcode_eq]
  simp

theorem isStore (h : Executes f s i op args e) : i.isStore = op.flags.store := by
  rw [← h.flags]
  rfl

theorem isCall (h : Executes f s i op args e) : i.isCall = op.flags.call := by
  rw [← h.flags]
  rfl

theorem isEffect (h : Executes f s i op args e) :
    i.isEffect = (op.flags.store || op.flags.ret || op.flags.jump || op.flags.call) := by
  rw [← h.flags]
  rfl

theorem cases (h : Executes f s i op args e) : e.From op i.relation i.def? s.memory args :=
  effect_cases h.effect

/-- An instruction that is no effect writes what it computes. -/
theorem exists_assign (h : Executes f s i op args e) (hi : i.isEffect = false) :
    ∃ d w, e = .assign d ⟨d.size, w⟩ ∧ i.def? = some d ∧
      produce op i.relation d.size s.memory args = some w := by
  rw [h.isEffect] at hi
  cases h.cases with
  | assign hdest hvalue => exact ⟨_, _, rfl, hdest, hvalue⟩
  | store hop => simp [hop, GenericOp.flags] at hi
  | jump hop => rcases hop with rfl | rfl <;> simp [GenericOp.flags] at hi
  | skip hop => simp [hop, GenericOp.flags] at hi
  | call hop => simp [hop, GenericOp.flags] at hi
  | stop hop => simp [hop, GenericOp.flags] at hi

theorem transfer (h : Executes f s i op args e) (hopcode : j.opcode = i.opcode)
    (hflags : j.flags = i.flags) (hrelation : j.relation = i.relation) (hdef : j.def? = i.def?)
    (hmemory : t.memory = s.memory) (hargs : j.uses.mapM (·.eval g.frame t) = some args) :
    Executes g t j op args e where
  generic := by
    rw [Instruction.generic?, hopcode]
    exact h.generic
  flags := by rw [hflags, h.flags]
  evaluates := hargs
  effect := by rw [hrelation, hdef, hmemory, h.effect]

end Executes

/-! ## Operands one after the other -/

section MapM

variable {α β γ : Type} {F : α → Option γ} {as : List α} {cs : List γ}

theorem mapM_cons_eq_some {a : α} :
    (a :: as).mapM F = some cs ↔ ∃ c cs', F a = some c ∧ as.mapM F = some cs' ∧ cs = c :: cs' := by
  rw [List.mapM_cons]
  constructor
  · intro h
    obtain ⟨c, hc, h⟩ := Option.bind_eq_some_iff.mp h
    obtain ⟨cs', hcs', h⟩ := Option.bind_eq_some_iff.mp h
    exact ⟨c, cs', hc, hcs', (Option.some.inj h).symm⟩
  · rintro ⟨c, cs', hc, hcs', rfl⟩
    rw [hc, hcs']
    rfl

theorem mapM_map_of_eq_some {G : β → Option γ} {φ : α → β}
    (hstep : ∀ a ∈ as, ∀ c, F a = some c → G (φ a) = some c) (h : as.mapM F = some cs) :
    (as.map φ).mapM G = some cs := by
  induction as generalizing cs with
  | nil => exact h
  | cons a as ih =>
    obtain ⟨c, cs', hc, hcs', rfl⟩ := mapM_cons_eq_some.mp h
    refine mapM_cons_eq_some.mpr ⟨c, cs', hstep a (by simp) c hc, ?_, rfl⟩
    exact ih (fun b hb => hstep b (by simp [hb])) hcs'

theorem mapM_of_eq {G : α → Option γ} (hstep : ∀ a ∈ as, G a = F a) (h : as.mapM F = some cs) :
    as.mapM G = some cs := by
  rw [← List.map_id as]
  exact mapM_map_of_eq_some (fun a ha c hc => (hstep a ha).trans hc) h

theorem length_of_mapM_eq_some (h : as.mapM F = some cs) : cs.length = as.length := by
  induction as generalizing cs with
  | nil =>
    cases h
    rfl
  | cons a as ih =>
    obtain ⟨c, cs', -, hcs', rfl⟩ := mapM_cons_eq_some.mp h
    rw [List.length_cons, List.length_cons, ih hcs']

theorem exists_of_mem_mapM {c : γ} (h : as.mapM F = some cs) (hc : c ∈ cs) :
    ∃ a ∈ as, F a = some c := by
  induction as generalizing cs with
  | nil =>
    cases h
    cases hc
  | cons a as ih =>
    obtain ⟨c', cs', hc', hcs', rfl⟩ := mapM_cons_eq_some.mp h
    rcases List.mem_cons.mp hc with rfl | hc
    · exact ⟨a, by simp, hc'⟩
    · obtain ⟨a', ha', heq⟩ := ih hcs' hc
      exact ⟨a', by simp [ha'], heq⟩

theorem exists_of_mapM_eq_cons {c : γ} (h : as.mapM F = some (c :: cs)) :
    ∃ a as', as = a :: as' ∧ F a = some c ∧ as'.mapM F = some cs := by
  cases as with
  | nil => cases h
  | cons a as =>
    obtain ⟨c', cs', hc, hcs, heq⟩ := mapM_cons_eq_some.mp h
    cases heq
    exact ⟨a, as, rfl, hc, hcs⟩

end MapM

/-! ## Positions -/

namespace Instruction

def virtualDef? (i : Instruction) : Option RegId := (i.def?.filter (·.isVirtual)).bind (·.reg?)

theorem virtualDef?_eq_some {r : RegId} :
    i.virtualDef? = some r ↔ ∃ d, i.def? = some d ∧ d.kind = .virtualReg r := by
  rw [virtualDef?]
  cases hd : i.def? with
  | none => simp
  | some d =>
    cases hkind : d.kind <;>
      simp [Option.filter, Operand.isVirtual, Operand.reg?, hkind]

theorem isEffect_eq_false_of_def? {d : Operand} (h : i.def? = some d) : i.isEffect = false := by
  rw [def?] at h
  split at h
  · next hdef => simpa using (Bool.and_eq_true_iff.mp hdef).2
  · cases h

end Instruction

namespace Function

theorem step_cases {m : Move M} (h : f.step s = some m) :
    (∃ i op args e, f.instruction? s.block s.index = some i ∧ Executes f s i op args e ∧
      s.perform f e = some m) ∨
    (f.instruction? s.block s.index = none ∧ s.block + 1 < f.blocks.length ∧
      m = .go (s.enter (s.block + 1))) := by
  unfold step at h
  split at h
  · next i hi =>
    obtain ⟨e, heffect, hperform⟩ := Option.bind_eq_some_iff.mp h
    obtain ⟨op, args, hexec⟩ := effectOf_eq_some.mp heffect
    exact .inl ⟨i, op, args, e, hi, hexec, hperform⟩
  · next hnone =>
    split at h
    · next hlt => exact .inr ⟨hnone, hlt, (Option.some.inj h).symm⟩
    · cases h

theorem step_of_executes {m : Move M} (hi : f.instruction? s.block s.index = some i)
    (hexec : Executes f s i op args e) (hperform : s.perform f e = some m) :
    f.step s = some m := by
  rw [step, hi]
  exact Option.bind_eq_some_iff.mpr ⟨e, effectOf_eq_some.mpr ⟨op, args, hexec⟩, hperform⟩

theorem step_of_none (hi : f.instruction? s.block s.index = none)
    (hlt : s.block + 1 < f.blocks.length) : f.step s = some (.go (s.enter (s.block + 1))) := by
  rw [step, hi]
  exact if_pos hlt

end Function

/-! ## Writes -/

theorem State.perform_assign {d : Operand} {v : Bits} {m : Move M}
    (h : s.perform f (.assign d v) = some m) :
    (∃ r, d.kind = .virtualReg r ∧ m = .go (s.write r v).next) ∨
      ∃ r, d.kind = .physicalReg r ∧ m = .go (s.writePhysical r v).next := by
  obtain ⟨s', hassign, rfl⟩ := Option.map_eq_some_iff.mp h
  rw [State.assign] at hassign
  split at hassign
  · next r hkind =>
    cases hassign
    exact .inl ⟨r, hkind, rfl⟩
  · next r hkind =>
    cases hassign
    exact .inr ⟨r, hkind, rfl⟩
  · cases hassign

/-! ## Agreement -/

theorem Operand.eval_congr {o : Operand}
    (hregs : ∀ r, o.unallocated? = some r → t.regs r = s.regs r)
    (hphysical : o.isPhysical = true → t.physical = s.physical) (frame : Frame) :
    o.eval frame t = o.eval frame s := by
  rw [Operand.unallocated?] at hregs
  rw [Operand.isPhysical] at hphysical
  rw [Operand.eval, Operand.eval]
  split <;> simp_all

/-- The states are in the same block and differ in their index and in registers outside `keep`. -/
structure Agree (keep : RegId → Prop) (s t : State M) : Prop where
  block : t.block = s.block
  regs : ∀ r, keep r → t.regs r = s.regs r
  physical : t.physical = s.physical
  memory : t.memory = s.memory
  trace : t.trace = s.trace

/-- How the index of a state moves along with the index of another one. -/
def Along (s s' t t' : State M) : Prop :=
  (s'.block = s.block ∧ s'.index = s.index + 1 ∧ t'.index = t.index + 1) ∨
    (s'.index = 0 ∧ t'.index = 0)

namespace Agree

variable {keep : RegId → Prop}

theorem eval (h : Agree keep s t) {o : Operand} (hkeep : ∀ r, o.unallocated? = some r → keep r)
    (frame : Frame) : o.eval frame t = o.eval frame s :=
  o.eval_congr (fun r hr => h.regs r (hkeep r hr)) (fun _ => h.physical) frame

theorem perform (h : Agree keep s t) (hnames : g.blockIndex? = f.blockIndex?) {m : Move M}
    (hs : s.perform f e = some m) :
    (∃ v, m = .stop v ∧ t.perform g e = some (.stop v)) ∨
    ∃ s' t', m = .go s' ∧ t.perform g e = some (.go t') ∧ Agree keep s' t' ∧ Along s s' t t' := by
  obtain ⟨hblock, hregs, hphysical, hmemory, htrace⟩ := h
  cases e with
  | assign d v =>
    rcases State.perform_assign hs with ⟨r, hkind, rfl⟩ | ⟨r, hkind, rfl⟩
    · refine .inr ⟨_, (t.write r v).next, rfl, ?_, ?_, .inl ⟨rfl, rfl, rfl⟩⟩
      · simp [State.perform, State.assign, hkind]
      · refine ⟨hblock, fun x hx => ?_, hphysical, hmemory, htrace⟩
        simp only [State.next, State.write, hregs x hx]
    · refine .inr ⟨_, (t.writePhysical r v).next, rfl, ?_, ?_, .inl ⟨rfl, rfl, rfl⟩⟩
      · simp [State.perform, State.assign, hkind]
      · exact ⟨hblock, hregs, congrArg (M.writePhysical · r v) hphysical, hmemory, htrace⟩
  | store a v =>
    cases hs
    refine .inr ⟨_, _, rfl, rfl, ⟨hblock, hregs, hphysical, ?_, ?_⟩, .inl ⟨rfl, rfl, rfl⟩⟩
    · simp [State.next, State.store, hmemory]
    · simp [State.next, State.store, htrace]
  | jump name =>
    obtain ⟨b, hb, rfl⟩ := Option.map_eq_some_iff.mp hs
    refine .inr ⟨_, t.enter b, rfl, by simp [State.perform, hnames, hb], ?_, .inr ⟨rfl, rfl⟩⟩
    exact ⟨rfl, hregs, hphysical, hmemory, htrace⟩
  | skip =>
    cases hs
    exact .inr ⟨_, _, rfl, rfl, ⟨hblock, hregs, hphysical, hmemory, htrace⟩,
      .inl ⟨rfl, rfl, rfl⟩⟩
  | call callee =>
    cases hs
    have hcall : M.call t.trace callee t.memory t.physical =
        M.call s.trace callee s.memory s.physical := by rw [htrace, hmemory, hphysical]
    refine .inr ⟨_, _, rfl, rfl, ⟨hblock, hregs, ?_, ?_, ?_⟩, .inl ⟨rfl, rfl, rfl⟩⟩
    · simp [State.next, State.call, hcall]
    · simp [State.next, State.call, hcall]
    · simp [State.next, State.call, htrace, hphysical]
  | stop v =>
    cases hs
    exact .inl ⟨v, rfl, rfl⟩

theorem enter (h : Agree keep s t) (b : Nat) : Agree keep (s.enter b) (t.enter b) :=
  ⟨rfl, h.regs, h.physical, h.memory, h.trace⟩

theorem of_assign (h : Agree keep s t) {d : Operand} {r : RegId} {v : Bits} {m : Move M}
    (hd : d.kind = .virtualReg r) (hr : ¬ keep r) (hs : s.perform f (.assign d v) = some m) :
    ∃ s', m = .go s' ∧ Agree keep s' t ∧ s'.block = s.block ∧ s'.index = s.index + 1 := by
  rcases State.perform_assign hs with ⟨r', hkind, rfl⟩ | ⟨r', hkind, rfl⟩
  · cases hd.symm.trans hkind
    refine ⟨_, rfl, ⟨h.block, fun x hx => ?_, h.physical, h.memory, h.trace⟩, rfl, rfl⟩
    have hne : x ≠ r := by
      rintro rfl
      exact hr hx
    simp only [State.next, State.write, if_neg hne, h.regs x hx]
  · cases hd.symm.trans hkind

end Agree

end Retarget.Machine
