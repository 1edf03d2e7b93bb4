import Retarget.Proofs.Execution.Step
import Retarget.Target.AArch64.Op

/-!
# Running a block at a time

The code of a block runs from its start to where control leaves it (`runCode`), and a function runs
one block after the other (`after`).  Besides generic code, the instruction that puts the page of a
symbol into a register has a meaning here: together with the offset in the page it makes up the
address.  Code that leaves a block in the same way, with the same memory and the same values in the
registers that are kept, can take the place of other code (`Matches`), and functions whose blocks
match run alike (`Alike.after`).
-/

namespace Retarget.Machine

variable {M : Interpretation}

/-- The page of a symbol: its address without the offset in the page. -/
def Interpretation.page (M : Interpretation) (name : String) : BitVec M.pointerBits :=
  M.symbol name - M.symbol (":lo12:" ++ name)

/-- Where control leaves code before its end: for another block, or with a return. -/
inductive Exit where
  | jump (name : String)
  | stop (value : Option Bits)

/-- The state after an effect, and where control leaves if it does. -/
def State.apply (s : State M) : Effect M → Option (Option Exit × State M)
  | .assign dest value => (s.assign dest value).map fun s => (none, s)
  | .store address value => some (none, s.store address value)
  | .skip => some (none, s)
  | .call callee => some (none, s.call callee)
  | .jump name => some (some (.jump name), s)
  | .stop value => some (some (.stop value), s)

/-- How far a run has come: to the start of a block, or to a return and what it hands back. -/
inductive Progress (M : Interpretation) where
  | running (s : State M)
  | returned (value : Option Bits) (s : State M)

namespace Function

/-- The effect of an instruction: of generic code, or of the page of a symbol. -/
def effectAt (f : Function) (s : State M) (i : Instruction) : Option (Effect M) :=
  if i.opcode = Target.AArch64.Op.adrp.opcode then
    match i.operands with
    | [dest, source] => source.symbol?.map fun name =>
        .assign dest ⟨dest.size, (M.page name).setWidth dest.size⟩
    | _ => none
  else f.effectOf s i

def runCode (f : Function) : List Instruction → State M → Option (Option Exit × State M)
  | [], s => some (none, s)
  | i :: is, s => do
    let e ← f.effectAt s i
    match ← s.apply e with
    | (none, s) => f.runCode is s
    | (some x, s) => some (some x, s)

def turn (f : Function) (s : State M) : Option (Progress M) := do
  match ← f.runCode (f.rest s.block 0) s with
  | (none, t) =>
    if s.block + 1 < f.blocks.length then some (.running (t.enter (s.block + 1))) else none
  | (some (.jump name), t) => (f.blockIndex? name).map fun b => .running (t.enter b)
  | (some (.stop value), t) => some (.returned value t)

/-- How far the function comes from a state in `n` blocks. -/
def after (f : Function) : Nat → State M → Option (Progress M)
  | 0, s => some (.running s)
  | n + 1, s => do
    match ← f.turn s with
    | .running t => f.after n t
    | .returned value t => some (.returned value t)

end Function

/-! ## Agreement -/

variable {f g h : Function} {keep keep' : RegId → Prop} {s t u : State M} {i : Instruction}
  {e : Effect M}

namespace Agree

theorem refl (keep : RegId → Prop) (s : State M) : Agree keep s s :=
  ⟨rfl, fun _ _ => rfl, rfl, rfl, rfl⟩

theorem trans (hst : Agree keep s t) (htu : Agree keep' t u) :
    Agree (fun r => keep r ∧ keep' r) s u :=
  ⟨htu.block.trans hst.block, fun r hr => (htu.regs r hr.2).trans (hst.regs r hr.1),
    htu.physical.trans hst.physical, htu.memory.trans hst.memory, htu.trace.trans hst.trace⟩

theorem mono (hst : Agree keep s t) (hkeep : ∀ r, keep' r → keep r) : Agree keep' s t :=
  ⟨hst.block, fun r hr => hst.regs r (hkeep r hr), hst.physical, hst.memory, hst.trace⟩

theorem write {r : RegId} (hr : ¬keep r) (s : State M) (v : Bits) : Agree keep s (s.write r v) := by
  refine ⟨rfl, fun x hx => ?_, rfl, rfl, rfl⟩
  have hne : x ≠ r := by
    rintro rfl
    exact hr hx
  simp only [State.write, if_neg hne]

theorem assign (hst : Agree keep s t) {d : Operand} {v : Bits} {s' : State M}
    (hs : s.assign d v = some s') : ∃ t', t.assign d v = some t' ∧ Agree keep s' t' := by
  rw [State.assign] at hs ⊢
  split at hs
  · next r hkind =>
    cases hs
    refine ⟨_, rfl, hst.block, fun x hx => ?_, hst.physical, hst.memory, hst.trace⟩
    simp only [State.write, hst.regs x hx]
  · next r hkind =>
    cases hs
    refine ⟨_, rfl, hst.block, hst.regs, ?_, hst.memory, hst.trace⟩
    exact congrArg (M.writePhysical · r v) hst.physical
  · cases hs

theorem apply (hst : Agree keep s t) {x : Option Exit} {s' : State M}
    (hs : s.apply e = some (x, s')) : ∃ t', t.apply e = some (x, t') ∧ Agree keep s' t' := by
  cases e with
  | assign d v =>
    obtain ⟨s₁, hassign, heq⟩ := Option.map_eq_some_iff.mp hs
    cases heq
    obtain ⟨t₁, hassign', hagree⟩ := hst.assign hassign
    exact ⟨t₁, by simp [State.apply, hassign'], hagree⟩
  | store a v =>
    cases hs
    refine ⟨_, rfl, hst.block, hst.regs, hst.physical, ?_, ?_⟩
    · simp [State.store, hst.memory]
    · simp [State.store, hst.trace]
  | call callee =>
    cases hs
    have hcall : M.call t.trace callee t.memory t.physical =
        M.call s.trace callee s.memory s.physical := by
      rw [hst.trace, hst.memory, hst.physical]
    refine ⟨_, rfl, hst.block, hst.regs, ?_, ?_, ?_⟩
    · simp [State.call, hcall]
    · simp [State.call, hcall]
    · simp [State.call, hst.trace, hst.physical]
  | skip | jump name | stop v =>
    cases hs
    exact ⟨t, rfl, hst⟩

end Agree

def Instruction.Within (keep : RegId → Prop) (i : Instruction) : Prop :=
  ∀ o ∈ i.operands, ∀ r, o.unallocated? = some r → keep r

theorem Function.effectAt_eq {op : GenericOp} (hop : i.generic? = some op) (f : Function)
    (s : State M) : f.effectAt s i = f.effectOf s i := by
  rw [effectAt, if_neg]
  rw [Instruction.generic?_eq_some hop]
  nofun

theorem Executes.effectAt_eq {op : GenericOp} {args : List (Arg M.pointerBits)}
    (h : Executes f s i op args e) : f.effectAt s i = some e := by
  rw [f.effectAt_eq h.generic]
  exact effectOf_eq_some.mpr ⟨op, args, h⟩

theorem Agree.effectAt (hst : Agree keep s t) (hframe : g.frame = f.frame) (hi : i.Within keep)
    (h : f.effectAt s i = some e) : g.effectAt t i = some e := by
  rw [Function.effectAt] at h ⊢
  split
  · next hadrp => simpa [hadrp] using h
  · next hadrp =>
    rw [if_neg hadrp] at h
    obtain ⟨op, args, hexec⟩ := effectOf_eq_some.mp h
    refine effectOf_eq_some.mpr ⟨op, args, hexec.transfer rfl rfl rfl rfl hst.memory ?_⟩
    rw [hframe]
    refine mapM_of_eq (fun o ho => hst.eval (hi o ?_) f.frame) hexec.evaluates
    exact i.mem_operands_of_mem_uses ho

/-! ## Code in the place of other code -/

/-- The code `new` of `g` leaves the block as the code `old` of `f` does, from all states that agree
on the registers to keep. -/
def Matches (M : Interpretation) (keep : RegId → Prop) (f : Function) (old : List Instruction)
    (g : Function) (new : List Instruction) : Prop :=
  ∀ ⦃s t : State M⦄ ⦃x : Option Exit⦄ ⦃s' : State M⦄, Agree keep s t →
    f.runCode old s = some (x, s') → ∃ t', g.runCode new t = some (x, t') ∧ Agree keep s' t'

theorem Function.runCode_append (is js : List Instruction) (s : State M) :
    f.runCode (is ++ js) s = (f.runCode is s).bind fun
      | (none, s') => f.runCode js s'
      | (some x, s') => some (some x, s') := by
  induction is generalizing s with
  | nil => rfl
  | cons i is ih =>
    rw [List.cons_append, runCode, runCode]
    cases f.effectAt s i with
    | none => rfl
    | some e =>
      simp only [Option.bind_eq_bind, Option.bind_some]
      cases s.apply e with
      | none => rfl
      | some y =>
        obtain ⟨x, s₁⟩ := y
        cases x with
        | none => exact ih s₁
        | some x => rfl

namespace Matches

variable {old new old' new' : List Instruction}

theorem append (h : Matches M keep f old g new) (h' : Matches M keep f old' g new') :
    Matches M keep f (old ++ old') g (new ++ new') := by
  intro s t x s' hst hs
  rw [Function.runCode_append] at hs
  obtain ⟨⟨y, s₁⟩, hold, hs⟩ := Option.bind_eq_some_iff.mp hs
  obtain ⟨t₁, hnew, hst₁⟩ := h hst hold
  cases y with
  | none =>
    obtain ⟨t', hnew', hst'⟩ := h' hst₁ hs
    refine ⟨t', ?_, hst'⟩
    rw [Function.runCode_append, hnew]
    exact hnew'
  | some y =>
    cases hs
    refine ⟨t₁, ?_, hst₁⟩
    rw [Function.runCode_append, hnew]
    rfl

theorem refl (hframe : g.frame = f.frame) {is : List Instruction} (his : ∀ i ∈ is, i.Within keep) :
    Matches M keep f is g is := by
  induction is with
  | nil =>
    intro s t x s' hst hs
    cases hs
    exact ⟨t, rfl, hst⟩
  | cons i is ih =>
    intro s t x s' hst hs
    rw [Function.runCode] at hs
    obtain ⟨e, he, hs⟩ := Option.bind_eq_some_iff.mp hs
    obtain ⟨⟨y, s₁⟩, happly, hs⟩ := Option.bind_eq_some_iff.mp hs
    have he' := hst.effectAt hframe (his i (by simp)) he
    obtain ⟨t₁, happly', hst₁⟩ := hst.apply happly
    rw [Function.runCode, he', Option.bind_eq_bind, Option.bind_some, happly']
    cases y with
    | none => exact ih (fun j hj => his j (by simp [hj])) hst₁ hs
    | some y =>
      cases hs
      exact ⟨t₁, rfl, hst₁⟩

/-- It is enough to compare runs from the same state if the old code mentions only registers that are
kept. -/
theorem of_old_within (hframe : g.frame = f.frame) (hold : ∀ i ∈ old, i.Within keep)
    (h : ∀ (t : State M) x t₁, g.runCode old t = some (x, t₁) →
      ∃ t', g.runCode new t = some (x, t') ∧ Agree keep t₁ t') : Matches M keep f old g new := by
  intro s t x s' hst hs
  obtain ⟨t₁, ht, hst₁⟩ := refl hframe hold hst hs
  obtain ⟨t', ht', hagree⟩ := h t x t₁ ht
  exact ⟨t', ht', (hst₁.trans hagree).mono fun r hr => ⟨hr, hr⟩⟩

theorem of_new_within (hframe : g.frame = f.frame) (hnew : ∀ i ∈ new, i.Within keep)
    (h : ∀ (s : State M) x s₁, f.runCode old s = some (x, s₁) →
      ∃ s₂, f.runCode new s = some (x, s₂) ∧ Agree keep s₁ s₂) : Matches M keep f old g new := by
  intro s t x s' hst hs
  obtain ⟨s₂, hs₂, hagree⟩ := h s x s' hs
  obtain ⟨t', ht', hst'⟩ := refl hframe hnew hst hs₂
  exact ⟨t', ht', (hagree.trans hst').mono fun r hr => ⟨hr, hr⟩⟩

end Matches

/-! ## Functions that run alike -/

/-- Runs that have come equally far, with the same values in what is kept. -/
inductive Progress.Agree (keep : RegId → Prop) : Progress M → Progress M → Prop
  | running {s t : State M} (h : Machine.Agree keep s t) : Agree keep (.running s) (.running t)
  | returned {value : Option Bits} {s t : State M} (h : Machine.Agree keep s t) :
      Agree keep (.returned value s) (.returned value t)

theorem Progress.Agree.trans {p q r : Progress M} (hpq : p.Agree keep q) (hqr : q.Agree keep' r) :
    p.Agree (fun r => keep r ∧ keep' r) r := by
  cases hpq with
  | running hst =>
    cases hqr with
    | running htu => exact .running (hst.trans htu)
  | returned hst =>
    cases hqr with
    | returned htu => exact .returned (hst.trans htu)

theorem Progress.Agree.mono {p q : Progress M} (hpq : p.Agree keep q)
    (hkeep : ∀ r, keep' r → keep r) : p.Agree keep' q := by
  cases hpq with
  | running hst => exact .running (hst.mono hkeep)
  | returned hst => exact .returned (hst.mono hkeep)

/-- The blocks of the functions have the same names and code that matches. -/
structure Alike (M : Interpretation) (keep : RegId → Prop) (f g : Function) : Prop where
  blockIndex?_eq : g.blockIndex? = f.blockIndex?
  length_eq : g.blocks.length = f.blocks.length
  code : ∀ b, Matches M keep f (f.rest b 0) g (g.rest b 0)

namespace Alike

theorem turn (h : Alike M keep f g) (hst : Agree keep s t) {p : Progress M}
    (hs : f.turn s = some p) : ∃ q, g.turn t = some q ∧ p.Agree keep q := by
  rw [Function.turn] at hs
  obtain ⟨⟨x, s'⟩, hrun, hs⟩ := Option.bind_eq_some_iff.mp hs
  obtain ⟨t', hrun', hst'⟩ := h.code s.block hst hrun
  rw [Function.turn, hst.block, hrun', Option.bind_eq_bind, Option.bind_some]
  match x, hs with
  | none, hs =>
    dsimp only at hs ⊢
    rw [h.length_eq]
    split at hs
    · next hlt =>
      cases hs
      exact ⟨_, if_pos hlt, .running (hst'.enter _)⟩
    · cases hs
  | some (.jump name), hs =>
    obtain ⟨b, hb, rfl⟩ := Option.map_eq_some_iff.mp hs
    refine ⟨.running (t'.enter b), ?_, .running (hst'.enter b)⟩
    simp [h.blockIndex?_eq, hb]
  | some (.stop value), hs =>
    cases hs
    exact ⟨_, rfl, .returned hst'⟩

/-- **Functions with matching blocks run alike**, from states in agreement. -/
theorem after (h : Alike M keep f g) {n : Nat} (hst : Agree keep s t) {p : Progress M}
    (hs : f.after n s = some p) : ∃ q, g.after n t = some q ∧ p.Agree keep q := by
  induction n generalizing s t with
  | zero =>
    cases hs
    exact ⟨_, rfl, .running hst⟩
  | succ n ih =>
    rw [Function.after] at hs
    obtain ⟨p₁, hturn, hs⟩ := Option.bind_eq_some_iff.mp hs
    obtain ⟨q₁, hturn', hagree⟩ := h.turn hst hturn
    rw [Function.after, hturn', Option.bind_eq_bind, Option.bind_some]
    cases hagree with
    | running hst' => exact ih hst' hs
    | returned hst' =>
      cases hs
      exact ⟨_, rfl, .returned hst'⟩

end Alike

end Retarget.Machine
