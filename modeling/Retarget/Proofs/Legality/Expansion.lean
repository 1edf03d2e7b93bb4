import Retarget.Pipeline
import Retarget.Proofs.Shape.Basic

/-!
# What an expansion can do

An expansion replaces one instruction by a few others (`Rewrite`), or a load and the zero extension
right behind it by a single load (`Folds`).  `Arch.expand_cases` says so for every function; all that
is proved about legalization starts from it.
-/

namespace Retarget.Machine

namespace Instruction

variable (i : Instruction)

@[simp] theorem generic?_generic (op : GenericOp) (os : List Operand) :
    (generic op os).generic? = some op :=
  rfl

@[simp] theorem generic?_native (n : Nat) (os : List Operand) : (native n os).generic? = none := rfl

@[simp] theorem generic?_setOpcode (op : GenericOp) :
    (i.setOpcode (.generic op)).generic? = some op :=
  rfl

@[simp] theorem generic?_withRelation (r : Relation) :
    (i.withRelation r).generic? = i.generic? :=
  rfl

@[simp] theorem generic?_markExpanded : i.markExpanded.generic? = i.generic? := rfl

@[simp] theorem generic?_withOperands (os : List Operand) :
    (i.withOperands os).generic? = i.generic? :=
  rfl

@[simp] theorem generic?_replaceOperand (k : Nat) (o : Operand) :
    (i.replaceOperand k o).generic? = i.generic? :=
  rfl

@[simp] theorem operands_markExpanded : i.markExpanded.operands = i.operands := rfl

end Instruction

namespace Function

variable {f g : Function} {b k : Nat} {old new : List Instruction}

/-- `g` is `f` with `new` in place of the instructions `old` at position `k` of block `b`. -/
structure Replaces (f : Function) (b k : Nat) (old new : List Instruction) (g : Function) :
    Prop where
  name : g.name = f.name
  frame : g.frame = f.frame
  saved : g.usedCalleeSaved = f.usedCalleeSaved
  caller : g.isCaller = f.isCaller
  code : ∃ block before after, f.blocks[b]? = some block ∧
    block.instructions = before ++ (old ++ after) ∧ before.length = k ∧
    g.blocks = f.blocks.set b { block with instructions := before ++ (new ++ after) }

theorem exists_split {i : Instruction} (h : f.instruction? b k = some i) :
    ∃ block before after, f.blocks[b]? = some block ∧
      block.instructions = before ++ i :: after ∧ before.length = k := by
  obtain ⟨block, hblock, hi⟩ := Option.bind_eq_some_iff.mp h
  obtain ⟨hk, hget⟩ := List.getElem?_eq_some_iff.mp hi
  refine ⟨block, block.instructions.take k, block.instructions.drop (k + 1), hblock, ?_, ?_⟩
  · rw [← hget, ← List.drop_eq_getElem_cons hk, List.take_append_drop]
  · exact List.length_take_of_le (Nat.le_of_lt hk)

theorem exists_split₂ {i j : Instruction} (hi : f.instruction? b k = some i)
    (hj : f.instruction? b (k + 1) = some j) :
    ∃ block before after, f.blocks[b]? = some block ∧
      block.instructions = before ++ i :: j :: after ∧ before.length = k := by
  obtain ⟨block, before, after, hblock, hcode, rfl⟩ := exists_split hi
  obtain ⟨block', hblock', hget⟩ := Option.bind_eq_some_iff.mp hj
  cases hblock.symm.trans hblock'
  rw [hcode, List.getElem?_append_right (by omega)] at hget
  simp only [Nat.add_sub_cancel_left, List.getElem?_cons_succ] at hget
  cases after with
  | nil => cases hget
  | cons j' after =>
    cases hget
    exact ⟨block, before, after, hblock, hcode, rfl⟩

theorem Replaces.splice {block : Block} {before after : List Instruction}
    (hblock : f.blocks[b]? = some block) (old new : List Instruction)
    (hcode : block.instructions = before ++ (old ++ after)) :
    Replaces f b before.length old new
      (f.modifyBlock b fun block => block.splice before.length old.length new) := by
  refine ⟨rfl, rfl, rfl, rfl, block, before, after, hblock, hcode, rfl, ?_⟩
  have hb := (List.getElem?_eq_some_iff.mp hblock).1
  refine List.ext_getElem? fun n => ?_
  rw [modifyBlock, List.getElem?_modify, List.getElem?_set]
  by_cases hn : b = n
  · subst hn
    rw [hblock, if_pos rfl, if_pos hb]
    simp [Block.splice, hcode]
  · simp [hn]

theorem Replaces.replaceAt {i : Instruction} (h : f.instruction? b k = some i)
    (new : List Instruction) : Replaces f b k [i] new (f.replaceAt b k new) := by
  obtain ⟨block, before, after, hblock, hcode, rfl⟩ := exists_split h
  exact .splice hblock [i] new hcode

theorem Replaces.of_fresh {f' : Function} (h : Replaces f' b k old new g)
    (hblocks : f'.blocks = f.blocks) (hname : f'.name = f.name) (hframe : f'.frame = f.frame)
    (hsaved : f'.usedCalleeSaved = f.usedCalleeSaved) (hcaller : f'.isCaller = f.isCaller) :
    Replaces f b k old new g := by
  refine ⟨h.name.trans hname, h.frame.trans hframe, h.saved.trans hsaved,
    h.caller.trans hcaller, ?_⟩
  rw [← hblocks]
  exact h.code

namespace Replaces

theorem length_blocks (h : f.Replaces b k old new g) : g.blocks.length = f.blocks.length := by
  obtain ⟨block, before, after, -, -, -, hg⟩ := h.code
  rw [hg, List.length_set]

theorem instruction?_eq (h : f.Replaces b k old new g) {c n : Nat} (hn : c ≠ b ∨ n < k) :
    g.instruction? c n = f.instruction? c n := by
  obtain ⟨block, before, after, hblock, hcode, rfl, hg⟩ := h.code
  have hb := (List.getElem?_eq_some_iff.mp hblock).1
  rw [instruction?, instruction?, hg, List.getElem?_set]
  by_cases hc : b = c
  · subst hc
    have hn : n < before.length := hn.resolve_left (· rfl)
    rw [if_pos rfl, if_pos hb, hblock]
    simp only [Option.bind_eq_bind, Option.bind_some, hcode]
    rw [List.getElem?_append_left hn, List.getElem?_append_left hn]
  · rw [if_neg hc]

theorem instruction?_new (h : f.Replaces b k old new g) {n : Nat} (hn : n < new.length) :
    g.instruction? b (k + n) = new[n]? := by
  obtain ⟨block, before, after, hblock, -, rfl, hg⟩ := h.code
  have hb := (List.getElem?_eq_some_iff.mp hblock).1
  rw [instruction?, hg, List.getElem?_set_self hb]
  simp only [Option.bind_eq_bind, Option.bind_some]
  rw [List.getElem?_append_right (by omega), Nat.add_sub_cancel_left, List.getElem?_append_left hn]

theorem rest_eq (h : f.Replaces b k old new g) :
    ∃ after, f.rest b k = old ++ after ∧ g.rest b k = new ++ after := by
  obtain ⟨block, before, after, hblock, hcode, rfl, hg⟩ := h.code
  have hb := (List.getElem?_eq_some_iff.mp hblock).1
  refine ⟨after, ?_, ?_⟩
  · rw [rest, hblock]
    simp [hcode]
  · rw [rest, hg, List.getElem?_set_self hb]
    simp

theorem instructions_eq (h : f.Replaces b k old new g) : ∃ before after,
    f.instructions = before ++ (old ++ after) ∧ g.instructions = before ++ (new ++ after) := by
  obtain ⟨block, before, after, hblock, hcode, -, hg⟩ := h.code
  obtain ⟨hb, hget⟩ := List.getElem?_eq_some_iff.mp hblock
  refine ⟨(f.blocks.take b).flatMap (·.instructions) ++ before,
    after ++ (f.blocks.drop (b + 1)).flatMap (·.instructions), ?_, ?_⟩
  · have hf : f.blocks = f.blocks.take b ++ block :: f.blocks.drop (b + 1) := by
      rw [← hget, ← List.drop_eq_getElem_cons hb, List.take_append_drop]
    calc f.instructions
        = (f.blocks.take b ++ block :: f.blocks.drop (b + 1)).flatMap (·.instructions) := by
          rw [← hf, instructions]
      _ = _ := by simp [hcode]
  · rw [instructions, hg, List.set_eq_take_append_cons_drop, if_pos hb]
    simp

theorem mem_instructions (h : f.Replaces b k old new g) {i : Instruction}
    (hi : i ∈ g.instructions) : i ∈ f.instructions ∨ i ∈ new := by
  obtain ⟨before, after, hf, hg⟩ := h.instructions_eq
  rw [hg] at hi
  rw [hf]
  simp only [List.mem_append] at hi ⊢
  rcases hi with hi | hi | hi
  · exact .inl (.inl hi)
  · exact .inr hi
  · exact .inl (.inr (.inr hi))

theorem mem_of_mem (h : f.Replaces b k old new g) {i : Instruction} (hi : i ∈ f.instructions)
    (hold : i ∉ old) : i ∈ g.instructions := by
  obtain ⟨before, after, hf, hg⟩ := h.instructions_eq
  rw [hf] at hi
  rw [hg]
  simp only [List.mem_append] at hi ⊢
  rcases hi with hi | hi | hi
  · exact .inl hi
  · exact absurd hi hold
  · exact .inr (.inr hi)

theorem all {P : Instruction → Prop} (h : f.Replaces b k old new g) (hf : f.All P)
    (hnew : ∀ i ∈ new, P i) : g.All P :=
  fun i hi => (h.mem_instructions hi).elim (hf i) (hnew i)

end Replaces

end Function

end Retarget.Machine

namespace Retarget.Target

open Machine

/-! ## Rewrites -/

/-- What an expansion for a target puts in the place of an instruction.  New registers are numbered
from `next` on, and `used` counts them. -/
inductive Rewrite (a : Arch) (next : Nat) (i : Instruction) : (used : Nat) → List Instruction → Prop
  /-- A constant is loaded into a register first. -/
  | materialize {op : GenericOp} {k : Nat} {imm : Operand} (hop : i.generic? = some op)
      (huse : op = .store ∨ (op.isThreeAddress ∨ op = .cmp) ∧ 0 < k)
      (hk : i.operand? k = some imm) (himm : imm.isImmediate) :
      Rewrite a next i 1
        [loadImmediate (.virtualReg next imm.ty) imm,
          i.replaceOperand k (.virtualReg next imm.ty)]
  /-- A conversion of a constant is computed. -/
  | convert {op : GenericOp} {dest source : Operand} {value folded : Int}
      (hop : i.generic? = some op) (hconversion : op.isWidthConversion)
      (hoperands : i.operands = [dest, source]) (hvalue : source.immediate? = some value)
      (hfolded : foldConversion op value source.size dest.size = .ok folded) :
      Rewrite a next i 0 [loadImmediate dest (.immediate folded dest.ty)]
  /-- A remainder is what the product of quotient and divisor leaves. -/
  | remainder {op division : GenericOp} {dest lhs rhs : Operand} (ha : a = .aarch64)
      (hop : i.generic? = some op)
      (hdivision : op = .mod ∧ division = .div ∨ op = .modu ∧ division = .divu)
      (hoperands : i.operands = [dest, lhs, rhs]) (hlhs : lhs.isImmediate = false) :
      Rewrite a next i 2
        [(Instruction.generic division [.virtualReg next dest.ty, lhs, rhs]).markExpanded,
          (Instruction.generic .mul [.virtualReg (next + 1) dest.ty, .virtualReg next dest.ty,
            rhs]).markExpanded,
          (Instruction.generic .sub [dest, lhs, .virtualReg (next + 1) dest.ty]).markExpanded]
  /-- Addition and subtraction change places when the constant is negated. -/
  | flip {op flipped : GenericOp} {imm : Operand} {value negated : Int} (ha : a = .aarch64)
      (hop : i.generic? = some op)
      (hflipped : op = .add ∧ flipped = .sub ∨ op = .sub ∧ flipped = .add)
      (hfirst : i.hasImmediateFirstSource = false) (hk : i.operand? 2 = some imm)
      (hvalue : imm.immediate? = some value) (hnegated : Word.negate? value = some negated)
      (hfits : Word.isUint negated 12) :
      Rewrite a next i 0
        [(i.setOpcode (.generic flipped)).replaceOperand 2 (imm.setImmediate negated)]
  /-- The address of a symbol is put together from its page and the offset in the page. -/
  | address {dest source : Operand} {rest : List Operand} {symbol : String} (ha : a = .aarch64)
      (hop : i.generic? = some .globalAddress) (hoperands : i.operands = dest :: source :: rest)
      (hsymbol : source.symbol? = some symbol) :
      Rewrite a next i 0
        [(AArch64.Op.adrp.on [dest, .global symbol source.ty]).markExpanded,
          (Instruction.generic .add
            [dest, dest, .global (":lo12:" ++ symbol) source.ty]).markExpanded]
  /-- `a > b` is `b < a`, and `a ≤ b` is `b ≥ a`. -/
  | swap {relation : Relation} {dest lhs rhs : Operand} (ha : a = .riscv32)
      (hop : i.generic? = some .cmp)
      (hrelation : i.relation = some relation) (hswap : relation = .gt ∨ relation = .le)
      (hoperands : i.operands = [dest, lhs, rhs]) (hlhs : lhs.isImmediate = false) :
      Rewrite a next i 0 [Riscv.compare relation.swapped dest rhs lhs]
  /-- `a ≥ b` is the negation of `a < b`. -/
  | notLess {dest lhs rhs : Operand} (ha : a = .riscv32) (hop : i.generic? = some .cmp)
      (hrelation : i.relation = some .ge) (hoperands : i.operands = [dest, lhs, rhs])
      (hlhs : lhs.isImmediate = false) :
      Rewrite a next i 1
        [Riscv.compare .lt (.virtualReg next dest.ty) lhs rhs,
          Riscv.exclusiveOr dest (.virtualReg next dest.ty) (.immediate 1 dest.ty)]
  /-- `a = b` is `(a ^ b) <u 1`. -/
  | equal {dest lhs rhs : Operand} (ha : a = .riscv32) (hop : i.generic? = some .cmp)
      (hrelation : i.relation = some .eq) (hoperands : i.operands = [dest, lhs, rhs])
      (hlhs : lhs.isImmediate = false) :
      Rewrite a next i 1
        [Riscv.exclusiveOr (.virtualReg next lhs.ty) lhs rhs,
          Riscv.compare .ltu dest (.virtualReg next lhs.ty) (.immediate 1 lhs.ty)]
  /-- `a ≠ b` is `0 <u (a ^ b)`. -/
  | different {dest lhs rhs : Operand} (ha : a = .riscv32) (hop : i.generic? = some .cmp)
      (hrelation : i.relation = some .ne) (hoperands : i.operands = [dest, lhs, rhs])
      (hlhs : lhs.isImmediate = false) :
      Rewrite a next i 1
        [Riscv.exclusiveOr (.virtualReg next lhs.ty) lhs rhs,
          Riscv.compare .ltu dest (.physicalReg Riscv.zero lhs.ty) (.virtualReg next lhs.ty)]

/-- `g` is `f` with the instruction at a position rewritten. -/
def Rewrites (a : Arch) (f : Function) (b k : Nat) (i : Instruction) (g : Function) : Prop :=
  ∃ used new, Rewrite a f.nextId i used new ∧ f.Replaces b k [i] new g ∧
    g.nextId = f.nextId + used

/-- Apart from native code, a rewrite puts in arithmetic, compares, stores and constants. -/
theorem Rewrite.generic?_cases {a : Arch} {next used : Nat} {i j : Instruction}
    {new : List Instruction} (h : Rewrite a next i used new) (hj : j ∈ new) {op : GenericOp}
    (hop : j.generic? = some op) :
    op.isThreeAddress ∨ op = .cmp ∨ op = .store ∨ op = .loadImm := by
  cases h with
  | materialize hop' huse hn himm =>
    simp only [List.mem_cons, List.not_mem_nil, or_false] at hj
    rcases hj with rfl | rfl
    · cases hop
      simp
    · cases hop'.symm.trans hop
      rcases huse with rfl | ⟨hthree | rfl, -⟩ <;> simp [*]
  | flip ha hop' hflipped hfirst hn hvalue hnegated hfits =>
    cases List.mem_singleton.mp hj
    cases hop
    rcases hflipped with ⟨-, rfl⟩ | ⟨-, rfl⟩ <;> exact .inl rfl
  | remainder ha hop' hdivision hoperands hlhs =>
    simp only [List.mem_cons, List.not_mem_nil, or_false] at hj
    rcases hj with rfl | rfl | rfl
    · cases hop
      rcases hdivision with ⟨-, rfl⟩ | ⟨-, rfl⟩ <;> exact .inl rfl
    all_goals
      cases hop
      exact .inl rfl
  | _ =>
    simp only [List.mem_cons, List.not_mem_nil, or_false] at hj
    rcases hj with rfl | rfl <;> cases hop <;> simp [GenericOp.isThreeAddress]

/-- The only native instruction of a rewrite takes the page of a symbol. -/
theorem Rewrite.native_cases {a : Arch} {next used : Nat} {i j : Instruction}
    {new : List Instruction} (h : Rewrite a next i used new) (hj : j ∈ new)
    (hnone : j.generic? = none) : a = .aarch64 ∧ j.opcode = AArch64.Op.adrp.opcode := by
  cases h with
  | materialize hop =>
    simp only [List.mem_cons, List.not_mem_nil, or_false] at hj
    rcases hj with rfl | rfl
    · cases hnone
    · cases hop.symm.trans hnone
  | address ha =>
    simp only [List.mem_cons, List.not_mem_nil, or_false] at hj
    rcases hj with rfl | rfl
    · exact ⟨ha, rfl⟩
    · cases hnone
  | _ =>
    simp only [List.mem_cons, List.not_mem_nil, or_false] at hj
    rcases hj with rfl | rfl | rfl <;> cases hnone

theorem Rewrite.exists_generic? {a : Arch} {next used : Nat} {i : Instruction}
    {new : List Instruction} (h : Rewrite a next i used new) :
    ∃ op, i.generic? = some op ∧
      (op.isThreeAddress ∨ op.isWidthConversion ∨ op = .cmp ∨ op = .store ∨ op = .globalAddress) := by
  cases h with
  | materialize hop huse =>
    refine ⟨_, hop, ?_⟩
    rcases huse with rfl | ⟨hthree | rfl, -⟩ <;> simp [*]
  | convert hop hconversion => exact ⟨_, hop, .inr (.inl hconversion)⟩
  | remainder ha hop hdivision =>
    exact ⟨_, hop, .inl (by rcases hdivision with ⟨rfl, -⟩ | ⟨rfl, -⟩ <;> rfl)⟩
  | flip ha hop hflipped =>
    exact ⟨_, hop, .inl (by rcases hflipped with ⟨rfl, -⟩ | ⟨rfl, -⟩ <;> rfl)⟩
  | address ha hop => exact ⟨_, hop, by simp⟩
  | swap ha hop | notLess ha hop | equal ha hop | different ha hop => exact ⟨_, hop, by simp⟩

theorem Rewrite.isReturn_eq_false {a : Arch} {next used : Nat} {i : Instruction}
    {new : List Instruction} (h : Rewrite a next i used new) (hi : i.isReturn = false) :
    ∀ j ∈ new, j.isReturn = false := by
  cases h with
  | materialize => exact List.forall_mem_cons.mpr ⟨rfl, List.forall_mem_singleton.mpr hi⟩
  | flip => exact List.forall_mem_singleton.mpr hi
  | remainder ha hop hdivision =>
    refine List.forall_mem_cons.mpr
      ⟨?_, List.forall_mem_cons.mpr ⟨rfl, List.forall_mem_singleton.mpr rfl⟩⟩
    rcases hdivision with ⟨-, rfl⟩ | ⟨-, rfl⟩ <;> rfl
  | convert | swap => exact List.forall_mem_singleton.mpr rfl
  | address | notLess | equal | different =>
    exact List.forall_mem_cons.mpr ⟨rfl, List.forall_mem_singleton.mpr rfl⟩

/-- **What the operands of a rewrite inherit**: a property of the operands of the instruction, of new
registers, of constants and of the register that is always zero. -/
theorem Rewrite.operands {a : Arch} {next used : Nat} {i : Instruction} {new : List Instruction}
    {Q : Operand → Prop} (h : Rewrite a next i used new) (hall : ∀ o ∈ i.operands, Q o)
    (hfresh : ∀ n < used, ∀ ty, Q (.virtualReg (next + n) ty))
    (himmediate : ∀ {o : Operand}, o.isImmediate → Q o)
    (hglobal : ∀ (name : String) (ty : LowType), Q (.global name ty))
    (hzero : a = .riscv32 → ∀ ty, Q (.physicalReg Riscv.zero ty)) :
    ∀ j ∈ new, ∀ o ∈ j.operands, Q o := by
  have htwo : ∀ {o₁ o₂ : Operand}, Q o₁ → Q o₂ → ∀ o ∈ [o₁, o₂], Q o :=
    fun h₁ h₂ => List.forall_mem_cons.mpr ⟨h₁, List.forall_mem_singleton.mpr h₂⟩
  have hthree : ∀ {o₁ o₂ o₃ : Operand}, Q o₁ → Q o₂ → Q o₃ → ∀ o ∈ [o₁, o₂, o₃], Q o :=
    fun h₁ h₂ h₃ => List.forall_mem_cons.mpr ⟨h₁, htwo h₂ h₃⟩
  have hold : ∀ {o₁ o₂ o₃ : Operand}, i.operands = [o₁, o₂, o₃] → Q o₁ ∧ Q o₂ ∧ Q o₃ := by
    intro o₁ o₂ o₃ hoperands
    simpa [hoperands] using hall
  cases h with
  | materialize hop huse hk himm =>
    have hnew := hfresh 0 Nat.one_pos
    exact List.forall_mem_cons.mpr ⟨htwo (hnew _) (himmediate himm),
      List.forall_mem_singleton.mpr (forall_mem_set hall _ (hnew _))⟩
  | convert hop hconversion hoperands =>
    have hdest := hall _ (hoperands ▸ List.mem_cons_self)
    exact List.forall_mem_singleton.mpr (htwo hdest (himmediate rfl))
  | remainder ha hop hdivision hoperands =>
    obtain ⟨hdest, hlhs, hrhs⟩ := hold hoperands
    have hquotient := hfresh 0 Nat.two_pos
    have hproduct := hfresh 1 Nat.one_lt_two
    exact List.forall_mem_cons.mpr ⟨hthree (hquotient _) hlhs hrhs, List.forall_mem_cons.mpr
      ⟨hthree (hproduct _) (hquotient _) hrhs,
        List.forall_mem_singleton.mpr (hthree hdest hlhs (hproduct _))⟩⟩
  | flip => exact List.forall_mem_singleton.mpr (forall_mem_set hall 2 (himmediate rfl))
  | address ha hop hoperands =>
    have hdest := hall _ (hoperands ▸ List.mem_cons_self)
    exact List.forall_mem_cons.mpr ⟨htwo hdest (hglobal _ _),
      List.forall_mem_singleton.mpr (hthree hdest hdest (hglobal _ _))⟩
  | swap ha hop hrelation hswap hoperands =>
    obtain ⟨hdest, hlhs, hrhs⟩ := hold hoperands
    exact List.forall_mem_singleton.mpr (hthree hdest hrhs hlhs)
  | notLess ha hop hrelation hoperands =>
    obtain ⟨hdest, hlhs, hrhs⟩ := hold hoperands
    have hless := hfresh 0 Nat.one_pos
    exact List.forall_mem_cons.mpr ⟨hthree (hless _) hlhs hrhs,
      List.forall_mem_singleton.mpr (hthree hdest (hless _) (himmediate rfl))⟩
  | equal ha hop hrelation hoperands =>
    obtain ⟨hdest, hlhs, hrhs⟩ := hold hoperands
    have hbits := hfresh 0 Nat.one_pos
    exact List.forall_mem_cons.mpr ⟨hthree (hbits _) hlhs hrhs,
      List.forall_mem_singleton.mpr (hthree hdest (hbits _) (himmediate rfl))⟩
  | different ha hop hrelation hoperands =>
    obtain ⟨hdest, hlhs, hrhs⟩ := hold hoperands
    have hbits := hfresh 0 Nat.one_pos
    exact List.forall_mem_cons.mpr ⟨hthree (hbits _) hlhs hrhs,
      List.forall_mem_singleton.mpr (hthree hdest (hzero ha _) (hbits _))⟩

/-- A load that extends what it loads, in place of a load and a zero extension to `dest`. -/
def extendingLoad (load : Instruction) (dest loaded : Operand) (rest : List Operand) :
    Instruction :=
  ((load.setOpcode (.generic .zextLoad)).withOperands
    (dest :: .immediate loaded.size loaded.ty :: rest)).markExpanded

def occurrences (is : List Instruction) (r : RegId) : Nat :=
  (is.flatMap (·.operands)).countP (·.unallocated? == some r)

@[simp] theorem occurrences_nil (r : RegId) : occurrences [] r = 0 := rfl

@[simp] theorem occurrences_cons (i : Instruction) (is : List Instruction) (r : RegId) :
    occurrences (i :: is) r =
      i.operands.countP (·.unallocated? == some r) + occurrences is r := by
  simp [occurrences]

@[simp] theorem occurrences_append (is js : List Instruction) (r : RegId) :
    occurrences (is ++ js) r = occurrences is r + occurrences js r := by
  simp [occurrences]

/-- How often the function mentions an id. -/
def mentions (f : Function) (r : RegId) : Nat := occurrences f.instructions r

/-- `g` is `f` with the load before position `k` and the zero extension there turned into one load.
Nothing else mentions the loaded register `r`. -/
structure Folds (f : Function) (b k : Nat) (g : Function) (load zext : Instruction)
    (dest source loaded : Operand) (extra rest : List Operand) (r : RegId) : Prop where
  isLoad : load.opcode = .generic .load
  isZext : zext.generic? = some .zext
  hasDef : load.hasDef
  loadOperands : load.operands = loaded :: rest
  zextOperands : zext.operands = dest :: source :: extra
  loads : loaded.unallocated? = some r
  reads : source.kind = .virtualReg r
  mentions_eq : mentions f r = 2
  replaces : 0 < k ∧ f.Replaces b (k - 1) [load, zext] [extendingLoad load dest loaded rest] g
  nextId_eq : g.nextId = f.nextId

namespace Folds

variable {f g : Function} {b k : Nat} {load zext : Instruction} {dest source loaded : Operand}
  {extra rest : List Operand} {r : RegId}
  (h : Folds f b k g load zext dest source loaded extra rest r)
include h

theorem generic?_load : load.generic? = some .load := congrArg Opcode.generic? h.isLoad

theorem mem_instructions : load ∈ f.instructions ∧ zext ∈ f.instructions := by
  obtain ⟨before, after, hf, -⟩ := h.replaces.2.instructions_eq
  simp [hf]

/-- The folded load names operands of the two instructions it stands for, and a size. -/
theorem operands {Q : Operand → Prop} (hload : ∀ o ∈ load.operands, Q o)
    (hzext : ∀ o ∈ zext.operands, Q o) (himmediate : ∀ value ty, Q (.immediate value ty)) :
    ∀ o ∈ (extendingLoad load dest loaded rest).operands, Q o := by
  rw [h.loadOperands, List.forall_mem_cons] at hload
  rw [h.zextOperands, List.forall_mem_cons] at hzext
  exact List.forall_mem_cons.mpr ⟨hzext.1, List.forall_mem_cons.mpr ⟨himmediate _ _, hload.2⟩⟩

end Folds

/-! ## Shared expansions -/

section Shared

variable {a : Arch} {f g : Function} {b k : Nat} {i : Instruction}

theorem Rewrites.of_replaceAt {used : Nat} {new : List Instruction} (hi : f.instruction? b k = some i)
    (h : Rewrite a f.nextId i used new) :
    Rewrites a f b k i (({ f with nextId := f.nextId + used } : Function).replaceAt b k new) :=
  ⟨used, new, h,
    .of_fresh (.replaceAt (f := { f with nextId := f.nextId + used }) hi new) rfl rfl rfl rfl rfl,
    rfl⟩

theorem replaces_of_materialize {n : Nat} (hi : f.instruction? b k = some i)
    (h : materialize f b k n = .ok g) : ∃ imm, i.operand? n = some imm ∧ imm.isImmediate ∧
      f.Replaces b k [i] [loadImmediate (.virtualReg f.nextId imm.ty) imm,
        i.replaceOperand n (.virtualReg f.nextId imm.ty)] g ∧ g.nextId = f.nextId + 1 := by
  rw [materialize, Function.instructionAt_eq hi, ok_bind] at h
  obtain ⟨imm, himm, h⟩ := bind_eq_ok.mp h
  rw [orFail_eq_ok, Option.filter_eq_some_iff] at himm
  obtain ⟨r, hr, h⟩ := bind_eq_ok.mp h
  cases Function.fresh_eq_ok hr
  cases h
  exact ⟨imm, himm.1, himm.2,
    .of_fresh (.replaceAt (f := { f with nextId := f.nextId + 1 }) hi _) rfl rfl rfl rfl rfl, rfl⟩

theorem materialize_eq_ok {op : GenericOp} {n : Nat} (hi : f.instruction? b k = some i)
    (hop : i.generic? = some op) (huse : op = .store ∨ (op.isThreeAddress ∨ op = .cmp) ∧ 0 < n)
    (h : materialize f b k n = .ok g) : Rewrites a f b k i g := by
  obtain ⟨imm, hk, himm, hreplaces, hnext⟩ := replaces_of_materialize hi h
  exact ⟨1, _, .materialize hop huse hk himm, hreplaces, hnext⟩

theorem expandStoreImmediate_eq_ok (hi : f.instruction? b k = some i)
    (hop : i.generic? = some .store) (h : expandStoreImmediate f b k = .ok g) :
    Rewrites a f b k i g := by
  rw [expandStoreImmediate, Function.instructionAt_eq hi, ok_bind] at h
  obtain ⟨n, -, h⟩ := bind_eq_ok.mp h
  exact materialize_eq_ok hi hop (.inl rfl) h

theorem not_isImmediate_of_first {op : GenericOp} {dest lhs : Operand} {rest : List Operand}
    (hop : i.generic? = some op) (hkind : op.isThreeAddress ∨ op = .cmp)
    (hoperands : i.operands = dest :: lhs :: rest) (hfirst : i.hasImmediateFirstSource = false) :
    lhs.isImmediate = false := by
  simp only [Instruction.hasImmediateFirstSource, hop, Option.any_some, Instruction.operand?,
    hoperands] at hfirst
  rcases hkind with hkind | rfl
  · simpa [hkind] using hfirst
  · simpa using hfirst

theorem expandRemainder_eq_ok {op : GenericOp} (hi : f.instruction? b k = some i)
    (hop : i.generic? = some op) (hremainder : op = .mod ∨ op = .modu)
    (hfirst : i.hasImmediateFirstSource = false) (h : expandRemainder f b k = .ok g) :
    Rewrites .aarch64 f b k i g := by
  rw [expandRemainder, Function.instructionAt_eq hi, ok_bind, hop] at h
  have hthree : op.isThreeAddress := by rcases hremainder with rfl | rfl <;> rfl
  rcases hremainder with rfl | rfl
  all_goals
    obtain ⟨division, hdivision, h⟩ := bind_eq_ok.mp h
    cases hdivision
    split at h
    · next dest lhs rhs hoperands =>
      obtain ⟨q, hq, h⟩ := bind_eq_ok.mp h
      cases Function.fresh_eq_ok hq
      obtain ⟨p, hp, h⟩ := bind_eq_ok.mp h
      cases Function.fresh_eq_ok hp
      cases h
      exact .of_replaceAt hi (.remainder rfl hop (by simp) hoperands
        (not_isImmediate_of_first hop (.inl hthree) hoperands hfirst))
    · cases h

theorem expandConstantConversion_eq_ok (hi : f.instruction? b k = some i)
    (hconversion : i.isConstantConversion) (h : expandConstantConversion f b k = .ok g) :
    Rewrites a f b k i g := by
  rw [expandConstantConversion, Function.instructionAt_eq hi, ok_bind] at h
  split at h
  · next op dest source hop hoperands =>
    obtain ⟨value, hvalue, h⟩ := bind_eq_ok.mp h
    obtain ⟨folded, hfolded, h⟩ := bind_eq_ok.mp h
    cases h
    have hwidth : op.isWidthConversion := by
      rw [Instruction.isConstantConversion, hop, Bool.and_eq_true] at hconversion
      exact hconversion.1
    exact .of_replaceAt hi (.convert hop hwidth hoperands (orFail_eq_ok.mp hvalue) hfolded)
  · cases h

/-- Both targets expand constants in these two places alike. -/
theorem expandConstants_eq_ok {rest : Result Function} (hi : f.instruction? b k = some i)
    (h : (if i.hasImmediateFirstSource then materialize f b k 1
      else if i.isConstantConversion then expandConstantConversion f b k else rest) = .ok g) :
    Rewrites a f b k i g ∨ i.hasImmediateFirstSource = false ∧ i.isConstantConversion = false ∧
      rest = .ok g := by
  split at h
  · next hfirst =>
    rw [Instruction.hasImmediateFirstSource, Bool.and_eq_true, Option.any_eq_true] at hfirst
    obtain ⟨⟨op, hop, hkind⟩, -⟩ := hfirst
    exact .inl (materialize_eq_ok hi hop (.inr ⟨by simpa using hkind, by omega⟩) h)
  · next hfirst =>
    split at h
    · next hconversion => exact .inl (expandConstantConversion_eq_ok hi hconversion h)
    · next hconversion => exact .inr ⟨by simpa using hfirst, by simpa using hconversion, h⟩

end Shared

/-! ## AArch64 -/

namespace AArch64

variable {f g : Function} {b k : Nat} {i : Instruction}

theorem expandGlobalAddress_eq_ok (hi : f.instruction? b k = some i)
    (hop : i.generic? = some .globalAddress) (h : expandGlobalAddress f b k i = .ok g) :
    Rewrites .aarch64 f b k i g := by
  rw [expandGlobalAddress] at h
  split at h
  · next dest source rest hoperands =>
    split at h
    · next symbol hsymbol =>
      cases h
      exact .of_replaceAt hi (.address rfl hop hoperands hsymbol)
    · cases h
  · cases h

theorem expandAddSub_eq_ok {op flipped : GenericOp} (hi : f.instruction? b k = some i)
    (hop : i.generic? = some op)
    (hflipped : op = .add ∧ flipped = .sub ∨ op = .sub ∧ flipped = .add)
    (hfirst : i.hasImmediateFirstSource = false) (h : expandAddSub f b k i flipped = .ok g) :
    Rewrites .aarch64 f b k i g := by
  rw [expandAddSub] at h
  split at h
  · next negated hnegated =>
    cases h
    rw [Option.filter_eq_some_iff, Option.bind_eq_some_iff] at hnegated
    obtain ⟨⟨value, hvalue, hnegate⟩, hfits⟩ := hnegated
    obtain ⟨imm, himm, hvalue⟩ := Option.bind_eq_some_iff.mp hvalue
    rw [Instruction.modifyOperand_eq (i := i.setOpcode (.generic flipped)) himm]
    exact .of_replaceAt hi (.flip rfl hop hflipped hfirst himm hvalue hnegate hfits)
  · refine materialize_eq_ok hi hop (.inr ⟨.inl ?_, by omega⟩) h
    rcases hflipped with ⟨rfl, -⟩ | ⟨rfl, -⟩ <;> rfl

theorem isFoldableZext_iff : isFoldableZext f b k ↔
    ∃ zext load source r, 0 < k ∧ f.instruction? b k = some zext ∧
      f.instruction? b (k - 1) = some load ∧ load.opcode = .generic .load ∧
      load.def?.bind (·.unallocated?) = some r ∧ zext.operand? 1 = some source ∧
      source.kind = .virtualReg r ∧ mentions f r = 2 := by
  refine ⟨fun h => ?_, ?_⟩
  · rw [isFoldableZext] at h
    split at h
    · next zext load hzext hload =>
      have hk : k ≠ 0 := by
        rintro rfl
        cases hload
      rw [if_neg hk] at hload
      rw [Bool.and_eq_true] at h
      obtain ⟨hgeneric, h⟩ := h
      split at h
      · next r source hr hsource =>
        simp only [Bool.and_eq_true, beq_iff_eq] at h
        refine ⟨zext, load, source, r, by omega, hzext, hload, Instruction.isGeneric_iff.mp hgeneric,
          hr, hsource, ?_, h.2⟩
        obtain ⟨⟨hvirtual, hreg⟩, -⟩ := h
        rw [Operand.isVirtual] at hvirtual
        rw [Operand.reg?] at hreg
        cases hkind : source.kind <;> simp_all
      · cases h
    · cases h
  · rintro ⟨zext, load, source, r, hk, hzext, hload, hcode, hr, hsource, hkind, hcount⟩
    rw [mentions, occurrences] at hcount
    simp [isFoldableZext, hzext, hload, Nat.ne_of_gt hk, hr, hsource, Instruction.isGeneric, hcode,
      Operand.isVirtual, Operand.reg?, hkind, hcount]

theorem foldZextIntoLoad_eq_ok (hi : f.instruction? b k = some i)
    (hop : i.generic? = some .zext) (hfoldable : isFoldableZext f b k)
    (h : foldZextIntoLoad f b k i = .ok g) :
    ∃ load dest source loaded extra rest r,
      Folds f b k g load i dest source loaded extra rest r := by
  obtain ⟨zext, load, source, r, hk, hzext, hload, hcode, hr, hsource, hkind, hcount⟩ :=
    isFoldableZext_iff.mp hfoldable
  cases hi.symm.trans hzext
  rw [foldZextIntoLoad, if_neg (by omega), hload] at h
  dsimp only at h
  split at h
  · next dest extra loaded rest hzexts hloads =>
    cases h
    obtain ⟨loaded', hloaded', hunallocated⟩ := Option.bind_eq_some_iff.mp hr
    rw [Instruction.def?] at hloaded'
    split at hloaded'
    · next hdef =>
      rw [hloads] at hloaded'
      cases hloaded'
      rw [Instruction.operand?, hzexts] at hsource
      obtain ⟨extra', rfl⟩ : ∃ extra', extra = source :: extra' := by
        cases extra with
        | nil => cases hsource
        | cons o extra' =>
          cases hsource
          exact ⟨extra', rfl⟩
      obtain ⟨block, before, after, hblock, hsplit, hlength⟩ :=
        Function.exists_split₂ hload (j := i) (by rwa [Nat.sub_add_cancel hk])
      refine ⟨load, dest, source, loaded, extra', rest, r, hcode, hop, hdef, hloads, hzexts,
        hunallocated, hkind, hcount, ⟨hk, ?_⟩, rfl⟩
      rw [← hlength]
      exact .splice hblock [load, i] _ hsplit
    · cases hloaded'
  · cases h

/-- An expansion rewrites the instruction or folds it into the load before it. -/
theorem expand_cases (hi : f.instruction? b k = some i) (hlegal : isLegal f b k = false)
    (h : expand f b k = .ok g) :
    Rewrites .aarch64 f b k i g ∨ ∃ load dest source loaded extra rest r,
      Folds f b k g load i dest source loaded extra rest r := by
  rw [expand, hi] at h
  rcases expandConstants_eq_ok hi h with h | ⟨hfirst, hconversion, h⟩
  · exact .inl h
  · cases hop : i.generic? with
    | none => simp [isLegal, hi, hop] at hlegal
    | some op =>
      rw [hop] at h
      simp only [isLegal, hi, hop, hfirst, hconversion, Bool.or_self, Bool.false_eq_true,
        if_false] at hlegal
      cases op with
      | mod => exact .inl (expandRemainder_eq_ok hi hop (.inl rfl) hfirst h)
      | modu => exact .inl (expandRemainder_eq_ok hi hop (.inr rfl) hfirst h)
      | store => exact .inl (expandStoreImmediate_eq_ok hi hop h)
      | globalAddress => exact .inl (expandGlobalAddress_eq_ok hi hop h)
      | zext => exact .inr (foldZextIntoLoad_eq_ok hi hop (by simpa using hlegal) h)
      | add => exact .inl (expandAddSub_eq_ok hi hop (.inl ⟨rfl, rfl⟩) hfirst h)
      | sub => exact .inl (expandAddSub_eq_ok hi hop (.inr ⟨rfl, rfl⟩) hfirst h)
      | mul | div | divu | and | or | xor | lsl | lsr =>
        exact .inl (materialize_eq_ok hi hop (.inr ⟨.inl rfl, by omega⟩) h)
      | cmp => exact .inl (materialize_eq_ok hi hop (.inr ⟨.inr rfl, by omega⟩) h)
      | _ => simp at hlegal

end AArch64

/-! ## RV32 -/

namespace Riscv

variable {f g : Function} {b k : Nat} {i : Instruction}

theorem expandCompare_eq_ok (hi : f.instruction? b k = some i) (hop : i.generic? = some .cmp)
    (hfirst : i.hasImmediateFirstSource = false)
    (h : expandCompare f b k i = .ok g) : Rewrites .riscv32 f b k i g := by
  rw [expandCompare] at h
  split at h
  · next relation dest lhs rhs hrelation hoperands =>
    have hlhs := not_isImmediate_of_first hop (.inr rfl) hoperands hfirst
    split at h
    · cases h
      exact .of_replaceAt hi (.swap rfl hop hrelation (.inl rfl) hoperands hlhs)
    · cases h
      exact .of_replaceAt hi (.swap rfl hop hrelation (.inr rfl) hoperands hlhs)
    · obtain ⟨r, hr, h⟩ := bind_eq_ok.mp h
      cases Function.fresh_eq_ok hr
      cases h
      exact .of_replaceAt hi (.notLess rfl hop hrelation hoperands hlhs)
    · obtain ⟨r, hr, h⟩ := bind_eq_ok.mp h
      cases Function.fresh_eq_ok hr
      cases h
      exact .of_replaceAt hi (.equal rfl hop hrelation hoperands hlhs)
    · obtain ⟨r, hr, h⟩ := bind_eq_ok.mp h
      cases Function.fresh_eq_ok hr
      cases h
      exact .of_replaceAt hi (.different rfl hop hrelation hoperands hlhs)
    · exact materialize_eq_ok hi hop (.inr ⟨.inr rfl, by omega⟩) h
    · exact materialize_eq_ok hi hop (.inr ⟨.inr rfl, by omega⟩) h
  · cases h

theorem isExpandable_cases (h : isExpandable i) :
    ∃ op, i.generic? = some op ∧ op.isFloat = false ∧ isTooWide i = false := by
  cases hop : i.generic? with
  | none => simp [isExpandable, hop] at h
  | some op =>
    cases hwide : op.isFloat || isTooWide i with
    | true => simp [isExpandable, hop, hwide] at h
    | false => exact ⟨op, rfl, Bool.or_eq_false_iff.mp hwide⟩

/-- An expansion rewrites the instruction. -/
theorem expand_cases (hi : f.instruction? b k = some i) (hlegal : isLegal f b k = false)
    (hexpandable : isExpandable i) (h : expand f b k = .ok g) : Rewrites .riscv32 f b k i g := by
  rw [expand, hi] at h
  rcases expandConstants_eq_ok hi h with h | ⟨hfirst, hconversion, h⟩
  · exact h
  · obtain ⟨op, hop, hfloat, hwide⟩ := isExpandable_cases hexpandable
    rw [hop] at h
    simp only [isLegal, hi, hop, hfloat, hwide, hfirst, hconversion, Bool.or_self,
      Bool.false_eq_true, if_false] at hlegal
    cases op with
    | store => exact expandStoreImmediate_eq_ok hi hop h
    | cmp => exact expandCompare_eq_ok hi hop hfirst h
    | mul | div | divu | mod | modu | sub | add | and | or | xor | lsl | lsr =>
      exact materialize_eq_ok hi hop (.inr ⟨.inl rfl, by omega⟩) h
    | _ => simp at hlegal

end Riscv

end Retarget.Target

namespace Retarget.Arch

open Machine Target

/-- **An expansion rewrites the instruction** or, on AArch64, folds it into the load before it. -/
theorem expand_cases {a : Arch} {f g : Function} {b k : Nat} {i : Instruction}
    (hi : f.instruction? b k = some i) (hlegal : a.target.isLegal f b k = false)
    (hexpandable : a.target.isExpandable i) (h : a.target.expand f b k = .ok g) :
    Rewrites a f b k i g ∨ a = .aarch64 ∧ ∃ load dest source loaded extra rest r,
      Folds f b k g load i dest source loaded extra rest r := by
  cases a with
  | aarch64 => exact (AArch64.expand_cases hi hlegal h).imp_right fun hfolds => ⟨rfl, hfolds⟩
  | riscv32 => exact .inl (Riscv.expand_cases hi hlegal hexpandable h)

end Retarget.Arch

/-! ## The walk over all positions -/

namespace Retarget.Machine.Function

open Target

variable {t : Target} {R : Nat → Nat → Function → Prop} {f g : Function}

theorem instruction?_eq_none_iff {b k : Nat} :
    f.instruction? b k = none ↔ f.blockLength b ≤ k := by
  rw [instruction?, blockLength]
  cases f.blocks[b]? <;> simp

/-- What expansions at a position keep holds when it is settled, and the position is legal then. -/
theorem settle_keeps {b k rounds : Nat} {Q : Function → Prop}
    (hexpand : ∀ f g i, Q f → f.instruction? b k = some i → t.isLegal f b k = false →
      t.isExpandable i → t.expand f b k = .ok g → Q g)
    (hf : Q f) (h : settle t b k rounds f = .ok g) :
    Q g ∧ (t.isLegal g b k ∨ g.instruction? b k = none) := by
  induction rounds generalizing f with
  | zero =>
    rw [settle] at h
    split at h
    · next hlegal =>
      cases h
      exact ⟨hf, .inl hlegal⟩
    · split at h
      · next hnone =>
        cases h
        exact ⟨hf, .inr hnone⟩
      · cases h
  | succ rounds ih =>
    rw [settle] at h
    split at h
    · next hlegal =>
      cases h
      exact ⟨hf, .inl hlegal⟩
    · next hlegal =>
      split at h
      · next hnone =>
        cases h
        exact ⟨hf, .inr hnone⟩
      · next i hi =>
        dsimp only at h
        split at h
        · next hexpandable =>
          obtain ⟨f', hf', h⟩ := bind_eq_ok.mp h
          exact ih (hexpand f f' i hf hi (by simpa using hlegal) hexpandable hf') h
        · cases h

/-- A property of a position and a function that every step of legalization keeps: the expansion of
the instruction there, the move to the next position and the move to the next block. -/
structure KeptBy (t : Target) (R : Nat → Nat → Function → Prop) : Prop where
  expand : ∀ {f g b k i}, R b k f → f.instruction? b k = some i → t.isLegal f b k = false →
    t.isExpandable i → t.expand f b k = .ok g → R b k g
  next : ∀ {f b k}, R b k f → t.isLegal f b k ∨ f.instruction? b k = none → R b (k + 1) f
  nextBlock : ∀ {f b k}, R b k f → f.instruction? b k = none → R (b + 1) 0 f

namespace KeptBy

theorem settle (hR : KeptBy t R) {b k rounds : Nat} (hf : R b k f)
    (h : settle t b k rounds f = .ok g) : R b (k + 1) g := by
  obtain ⟨hg, hlegal⟩ := settle_keeps (fun _ _ _ => hR.expand) hf h
  exact hR.next hg hlegal

theorem legalizeFrom (hR : KeptBy t R) {b k budget : Nat} (hf : R b k f)
    (h : legalizeFrom t b budget k f = .ok g) : R (b + 1) 0 g := by
  induction budget generalizing f k with
  | zero =>
    rw [Function.legalizeFrom] at h
    split at h
    · next hnone =>
      cases h
      exact hR.nextBlock hf hnone
    · cases h
  | succ budget ih =>
    rw [Function.legalizeFrom] at h
    split at h
    · obtain ⟨f', hf', h⟩ := bind_eq_ok.mp h
      exact ih (hR.settle hf hf') h
    · next hk =>
      cases h
      exact hR.nextBlock hf (instruction?_eq_none_iff.mpr (by omega))

theorem legalize (hR : KeptBy t R) (hf : R 0 0 f) (h : f.legalize t = .ok g) :
    R f.blocks.length 0 g :=
  foldlM_range_eq_ok (R := fun b => R b 0) hf (fun _ _ _ hf h => hR.legalizeFrom hf h) h

end KeptBy

variable {a : Arch}

/-- **A property of instructions holds of legal code** where it held of the code before, and rewrites
and folds keep it. -/
theorem All.legalize {P : Instruction → Prop}
    (hrewrite : ∀ {next used : Nat} {i : Instruction} {new : List Instruction},
      Rewrite a next i used new → P i → ∀ j ∈ new, P j)
    (hfold : ∀ {f g : Function} {b k : Nat} {load zext : Instruction}
      {dest source loaded : Operand} {extra rest : List Operand} {r : RegId},
      Folds f b k g load zext dest source loaded extra rest r → P load → P zext →
        P (extendingLoad load dest loaded rest))
    (hf : f.All P) (h : f.legalize a.target = .ok g) : g.All P := by
  refine KeptBy.legalize (R := fun _ _ f => f.All P) ⟨?_, fun hf _ => hf, fun hf _ => hf⟩ hf h
  intro f g b k i hf hi hlegal hexpandable hexpand
  rcases Arch.expand_cases hi hlegal hexpandable hexpand with
    ⟨used, new, hnew, hreplaces, -⟩ | ⟨-, load, dest, source, loaded, extra, rest, r, hfolds⟩
  · exact hreplaces.all hf (hrewrite hnew (hf i (mem_of_instruction? hi)))
  · obtain ⟨hload, hzext⟩ := hfolds.mem_instructions
    exact hfolds.replaces.2.all hf
      (List.forall_mem_singleton.mpr (hfold hfolds (hf load hload) (hf i hzext)))

/-- Legalization leaves the frame and the notes on calls and saved registers alone. -/
theorem notes_legalize (h : f.legalize a.target = .ok g) :
    g.frame = f.frame ∧ g.usedCalleeSaved = f.usedCalleeSaved ∧ g.isCaller = f.isCaller := by
  refine KeptBy.legalize (R := fun _ _ g => g.frame = f.frame ∧
    g.usedCalleeSaved = f.usedCalleeSaved ∧ g.isCaller = f.isCaller)
    ⟨?_, fun hg _ => hg, fun hg _ => hg⟩ ⟨rfl, rfl, rfl⟩ h
  rintro g g' b k i ⟨hframe, hsaved, hcaller⟩ hi hlegal hexpandable hexpand
  obtain ⟨at', old, new, hreplaces⟩ : ∃ at' old new, g.Replaces b at' old new g' := by
    rcases Arch.expand_cases hi hlegal hexpandable hexpand with
      ⟨used, new, -, hreplaces, -⟩ | ⟨-, load, dest, source, loaded, extra, rest, r, hfolds⟩
    · exact ⟨_, _, _, hreplaces⟩
    · exact ⟨_, _, _, hfolds.replaces.2⟩
  exact ⟨hreplaces.frame.trans hframe, hreplaces.saved.trans hsaved, hreplaces.caller.trans hcaller⟩

end Retarget.Machine.Function
