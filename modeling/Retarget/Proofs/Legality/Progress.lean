import Mathlib.Algebra.GroupWithZero.Nat
import Retarget.Proofs.Legality.Expansion

/-!
# Legalization makes progress

Two numbers say how far legalization has to go.  The rank of a position bounds how often the
instruction there is expanded; every expansion lowers it (`rank_expand`), so no limit on expansions
above four plays a part (`settle_eq_of_rank`).  The growth of an instruction bounds how many
instructions and new ids its expansions add; what an expansion leaves has no more of it
(`Rewrite.weight_le`).
-/

namespace Retarget.Machine

/-- How often an operation without constants in the place of its first source is expanded at most. -/
def GenericOp.rank : GenericOp → Option Relation → Nat
  | zext, _ => 4
  | mod, _ | modu, _ => 2
  | cmp, some .le => 3
  | cmp, some .lt | cmp, some .ltu => 1
  | cmp, _ => 2
  | _, _ => 1

/-- How often an instruction is expanded at most, until a legal one is in its place. -/
def Instruction.rank (i : Instruction) : Nat :=
  if i.hasImmediateFirstSource || i.isConstantConversion then 1
  else match i.generic? with
    | some op => op.rank i.relation
    | none => 1

/-- How often the instruction at a position is expanded at most. -/
def Function.rank (t : Target) (b k : Nat) (f : Function) : Nat :=
  if t.isLegal f b k then 0
  else match f.instruction? b k with
    | none => 0
    | some i => if t.isExpandable i then i.rank else 0

/-- How many instructions and new ids the expansions of an operation with `n` constants add at most. -/
def GenericOp.growth : GenericOp → Option Relation → (n : Nat) → Nat
  | loadImm, _, _ | zextLoad, _, _ => 0
  | mod, _, n | modu, _, n => 2 + 2 * n
  | globalAddress, _, n => 1 + 2 * n
  | cmp, some .lt, n | cmp, some .ltu, n => n
  | cmp, _, n => 2 + n
  | _, _, n => n

/-- How many constants are among the operands. -/
def constants (os : List Operand) : Nat := os.countP (·.isImmediate)

/-- How many instructions and new ids the expansions of an instruction add at most. -/
def Instruction.growth (i : Instruction) : Nat :=
  match i.generic? with
  | some op => op.growth i.relation (constants i.operands)
  | none => 0

theorem GenericOp.rank_cases (op : GenericOp) (relation : Option Relation) :
    op = .zext ∧ op.rank relation = 4 ∨ 0 < op.rank relation ∧ op.rank relation ≤ 3 := by
  cases op with
  | cmp =>
    cases relation with
    | none => decide
    | some r => cases r <;> decide
  | _ => simp [rank]

namespace Instruction

variable {i : Instruction} {op : GenericOp}

theorem rank_pos (i : Instruction) : 0 < i.rank := by
  rw [rank]
  split
  · decide
  · split
    · next op _ =>
      have := op.rank_cases i.relation
      omega
    · decide

theorem rank_le (hop : i.generic? = some op) : i.rank ≤ op.rank i.relation := by
  rw [rank, hop]
  split
  · have := op.rank_cases i.relation
    omega
  · exact Nat.le_refl _

theorem rank_eq (hop : i.generic? = some op) (hfirst : i.hasImmediateFirstSource = false)
    (hconversion : i.isConstantConversion = false) : i.rank = op.rank i.relation := by
  simp [rank, hop, hfirst, hconversion]

/-- Only a zero extension of a register takes as many expansions as there can be. -/
theorem rank_cases (i : Instruction) :
    i.generic? = some .zext ∧ i.isConstantConversion = false ∧ i.rank = 4 ∨ i.rank ≤ 3 := by
  rw [rank]
  split
  · exact .inr (by decide)
  · next hconstants =>
    split
    · next op hop =>
      rcases op.rank_cases i.relation with ⟨rfl, hrank⟩ | hrank
      · rw [Bool.not_eq_true, Bool.or_eq_false_iff] at hconstants
        exact .inl ⟨hop, hconstants.2, hrank⟩
      · exact .inr hrank.2
    · exact .inr (by decide)

theorem rank_eq_of_lhs {dest lhs : Operand} {rest : List Operand} (hop : i.generic? = some op)
    (hoperands : i.operands = dest :: lhs :: rest) (hlhs : lhs.isImmediate = false) :
    i.rank = op.rank i.relation :=
  rank_eq hop (by simp [hasImmediateFirstSource, operand?, hoperands, hlhs])
    (by simp [isConstantConversion, operand?, hoperands, hlhs])

theorem growth_eq (hop : i.generic? = some op) :
    i.growth = op.growth i.relation (constants i.operands) := by
  rw [growth, hop]

@[simp] theorem growth_generic (op : GenericOp) (os : List Operand) :
    (generic op os).markExpanded.growth = op.growth none (constants os) :=
  rfl

end Instruction

@[simp] theorem constants_nil : constants [] = 0 := rfl

@[simp] theorem constants_cons (o : Operand) (os : List Operand) :
    constants (o :: os) = constants os + if o.isImmediate then 1 else 0 :=
  List.countP_cons

end Retarget.Machine

namespace Retarget.Target

open Machine

variable {a : Arch} {f g : Function} {b k : Nat} {i j : Instruction}

/-! ## Ranks -/

theorem not_isExpandable_loadImmediate (a : Arch) (dest imm : Operand) :
    a.target.isExpandable (loadImmediate dest imm) = false := by
  cases a with
  | aarch64 => rfl
  | riscv32 =>
    show Riscv.isExpandable (loadImmediate dest imm) = false
    simp [Riscv.isExpandable, loadImmediate, Instruction.hasImmediateFirstSource,
      Instruction.isConstantConversion, GenericOp.isThreeAddress, GenericOp.isWidthConversion]

theorem rank_lt_of_head (hi : f.rank a.target b k = i.rank) (hj : g.instruction? b k = some j)
    (h : a.target.isLegal g b k ∨ a.target.isExpandable j = false ∨ j.rank < i.rank) :
    g.rank a.target b k < f.rank a.target b k := by
  have hpos := i.rank_pos
  rw [hi, Function.rank, hj]
  split
  · exact hpos
  · next hlegal =>
    dsimp only
    split
    · next hexpandable =>
      rcases h with h | h | h
      · exact absurd h hlegal
      · simp [h] at hexpandable
      · exact h
    · exact hpos

theorem AArch64.isLegal_flip {op flipped : GenericOp} {imm : Operand} {negated : Int}
    (hj : g.instruction? b k =
      some ((i.setOpcode (.generic flipped)).replaceOperand 2 (imm.setImmediate negated)))
    (hop : i.generic? = some op)
    (hflipped : op = .add ∧ flipped = .sub ∨ op = .sub ∧ flipped = .add)
    (hfirst : i.hasImmediateFirstSource = false) (hn : i.operand? 2 = some imm)
    (hfits : Word.isUint negated 12) : isLegal g b k := by
  obtain ⟨hlength, -⟩ := List.getElem?_eq_some_iff.mp hn
  have hsecond : ((i.setOpcode (.generic flipped)).replaceOperand 2
      (imm.setImmediate negated)).secondImmediate? = some negated := by
    simp [Instruction.secondImmediate?, Instruction.operand?, hlength, Operand.immediate?,
      Operand.setImmediate, Operand.withKind]
  have hone : ((i.operands.set 2 (imm.setImmediate negated))[1]?) = i.operands[1]? :=
    List.getElem?_set_ne (by decide)
  rw [Instruction.hasImmediateFirstSource] at hfirst
  rw [isLegal, hj]
  rcases hflipped with ⟨rfl, rfl⟩ | ⟨rfl, rfl⟩ <;>
    simpa [hop, hone, hsecond, hfits, Instruction.hasImmediateFirstSource,
      Instruction.isConstantConversion, Instruction.operand?, GenericOp.isThreeAddress,
      GenericOp.isWidthConversion] using hfirst

theorem Rewrites.rank_lt (h : Rewrites a f b k i g) (hi : f.rank a.target b k = i.rank) :
    g.rank a.target b k < f.rank a.target b k := by
  obtain ⟨used, new, hrewrite, hreplaces, -⟩ := h
  have hhead : ∀ j rest, new = j :: rest → g.instruction? b k = some j := by
    rintro j rest rfl
    exact hreplaces.instruction?_new (n := 0) (by simp)
  cases hrewrite with
  | materialize hop huse hn himm =>
    exact rank_lt_of_head hi (hhead _ _ rfl) (.inr (.inl (not_isExpandable_loadImmediate _ _ _)))
  | convert hop hconversion hoperands hvalue hfolded =>
    exact rank_lt_of_head hi (hhead _ _ rfl) (.inr (.inl (not_isExpandable_loadImmediate _ _ _)))
  | @remainder op division dest lhs rhs ha hop hdivision hoperands hlhs =>
    refine rank_lt_of_head hi (hhead _ _ rfl) (.inr (.inr ?_))
    rw [Instruction.rank_eq_of_lhs hop hoperands hlhs]
    refine Nat.lt_of_le_of_lt (Instruction.rank_le rfl) ?_
    rcases hdivision with ⟨rfl, rfl⟩ | ⟨rfl, rfl⟩ <;> exact Nat.lt_succ_self 1
  | @flip op flipped imm value negated ha hop hflipped hfirst hn hvalue hnegated hfits =>
    subst ha
    refine rank_lt_of_head hi (hhead _ _ rfl) (.inl ?_)
    exact AArch64.isLegal_flip (hhead _ _ rfl) hop hflipped hfirst hn hfits
  | address ha hop hoperands hsymbol =>
    subst ha
    exact rank_lt_of_head hi (hhead _ _ rfl) (.inr (.inl rfl))
  | swap ha hop hrelation hswap hoperands hlhs =>
    refine rank_lt_of_head hi (hhead _ _ rfl) (.inr (.inr ?_))
    rw [Instruction.rank_eq_of_lhs hop hoperands hlhs, hrelation]
    refine Nat.lt_of_le_of_lt (Instruction.rank_le rfl) ?_
    rcases hswap with rfl | rfl
    · exact Nat.lt_succ_self 1
    · exact Nat.lt_succ_self 2
  | notLess ha hop hrelation hoperands hlhs | equal ha hop hrelation hoperands hlhs
  | different ha hop hrelation hoperands hlhs =>
    refine rank_lt_of_head hi (hhead _ _ rfl) (.inr (.inr ?_))
    rw [Instruction.rank_eq_of_lhs hop hoperands hlhs, hrelation]
    exact Nat.lt_of_le_of_lt (Instruction.rank_le rfl) (Nat.lt_succ_self 1)

/-- A fold brings the next instruction to the position, and that one cannot be folded again. -/
theorem Folds.rank_lt {load zext : Instruction} {dest source loaded : Operand}
    {extra rest : List Operand} {r : RegId}
    (h : Folds f b k g load zext dest source loaded extra rest r)
    (hi : f.rank aarch64 b k = zext.rank) : g.rank aarch64 b k < f.rank aarch64 b k := by
  have hsource : source.isImmediate = false := by simp [Operand.isImmediate, h.reads]
  have hzext : zext.rank = 4 := Instruction.rank_eq_of_lhs h.isZext h.zextOperands hsource
  rw [hi, hzext, Function.rank]
  split
  · decide
  · next hlegal =>
    split
    · decide
    · next j hj =>
      split
      · rcases j.rank_cases with ⟨hop, hconversion, -⟩ | hrank
        · -- a zero extension of a register is legal behind anything but a load
          refine absurd ?_ hlegal
          have hfirst : j.hasImmediateFirstSource = false := by
            simp [Instruction.hasImmediateFirstSource, hop, GenericOp.isThreeAddress]
          have hfoldable : AArch64.isFoldableZext g b k = false := by
            refine Bool.eq_false_iff.mpr fun hfoldable => ?_
            obtain ⟨_, load', _, _, _, _, hload', hcode, -⟩ :=
              AArch64.isFoldableZext_iff.mp hfoldable
            have hnew : g.instruction? b (k - 1) = some (extendingLoad load dest loaded rest) :=
              h.replaces.2.instruction?_new (n := 0) (by simp)
            cases hload'.symm.trans hnew
            cases hcode
          show AArch64.isLegal g b k
          simp [AArch64.isLegal, hj, hop, hfirst, hconversion, hfoldable]
        · omega
      · decide

/-- **Every expansion lowers the rank of the position.** -/
theorem rank_expand (hi : f.instruction? b k = some i) (hlegal : a.target.isLegal f b k = false)
    (hexpandable : a.target.isExpandable i) (h : a.target.expand f b k = .ok g) :
    g.rank a.target b k < f.rank a.target b k := by
  have hrank : f.rank a.target b k = i.rank := by
    simp [Function.rank, hlegal, hi, hexpandable]
  rcases Arch.expand_cases hi hlegal hexpandable h with hrewrites |
    ⟨rfl, load, dest, source, loaded, extra, rest, r, hfolds⟩
  · exact hrewrites.rank_lt hrank
  · exact hfolds.rank_lt hrank

/-! ## Growth -/

/-- What the expansions of instructions can turn into, counted in instructions. -/
def weight (is : List Instruction) : Nat := (is.map fun i => i.growth + 1).sum

@[simp] theorem weight_nil : weight [] = 0 := rfl

@[simp] theorem weight_cons (i : Instruction) (is : List Instruction) :
    weight (i :: is) = i.growth + 1 + weight is := by
  simp [weight]

@[simp] theorem weight_append (is js : List Instruction) :
    weight (is ++ js) = weight is + weight js := by
  simp [weight]

theorem length_le_weight (is : List Instruction) : is.length ≤ weight is := by
  induction is with
  | nil => exact Nat.le_refl 0
  | cons i is ih =>
    rw [List.length_cons, weight_cons]
    omega

@[simp] theorem growth_loadImmediate (dest imm : Operand) :
    (loadImmediate dest imm).growth = 0 :=
  rfl

@[simp] theorem growth_compare (r : Relation) (d x y : Operand) :
    (Riscv.compare r d x y).growth = GenericOp.cmp.growth (some r) (constants [d, x, y]) :=
  rfl

@[simp] theorem growth_exclusiveOr (d x y : Operand) :
    (Riscv.exclusiveOr d x y).growth = constants [d, x, y] :=
  rfl

/-- One constant less is at least one instruction less. -/
theorem growth_lt_of_constants {op : GenericOp} (hop : op = .store ∨ op.isThreeAddress ∨ op = .cmp)
    (relation : Option Relation) {m n : Nat} (h : m < n) :
    op.growth relation m < op.growth relation n := by
  cases op with
  | cmp =>
    cases relation with
    | none => simp only [GenericOp.growth]; omega
    | some r => cases r <;> simp only [GenericOp.growth] <;> omega
  | and | or | xor | lsl | lsr | add | sub | mul | div | divu | mod | modu | addf | subf | mulf
  | divf | store =>
    simp only [GenericOp.growth]
    omega
  | _ => simp [GenericOp.isThreeAddress] at hop

/-- **A rewrite does not add to what there is to expand**, and takes fewer new ids than it leaves
instructions. -/
theorem Rewrite.weight_le {next used : Nat} {new : List Instruction}
    (h : Rewrite a next i used new) : weight new ≤ i.growth + 1 ∧ used < new.length := by
  cases h with
  | @materialize op n imm hop huse hn himm =>
    refine ⟨?_, by simp⟩
    obtain ⟨hlength, hget⟩ := List.getElem?_eq_some_iff.mp hn
    have hcount : constants (i.operands.set n (.virtualReg next imm.ty)) < constants i.operands := by
      have hpos : 0 < constants i.operands :=
        List.countP_pos_iff.mpr ⟨imm, List.mem_of_getElem? hn, himm⟩
      have hreg : (Operand.virtualReg next imm.ty).isImmediate = false := rfl
      rw [constants] at hpos ⊢
      rw [List.countP_set hlength, hget, himm, hreg]
      simp only [if_true, Bool.false_eq_true, if_false, constants]
      omega
    have hlt := growth_lt_of_constants (huse.imp_right (·.1)) i.relation hcount
    have hnew : (i.replaceOperand n (.virtualReg next imm.ty)).growth =
        op.growth i.relation (constants (i.operands.set n (.virtualReg next imm.ty))) :=
      Instruction.growth_eq hop
    simp only [weight_cons, weight_nil, growth_loadImmediate, hnew, Instruction.growth_eq hop]
    omega
  | convert hop hconversion hoperands hvalue hfolded => simp
  | @remainder op division dest lhs rhs ha hop hdivision hoperands hlhs =>
    refine ⟨?_, by simp⟩
    rcases hdivision with ⟨rfl, rfl⟩ | ⟨rfl, rfl⟩
    all_goals
      simp only [weight_cons, weight_nil, Instruction.growth_eq hop, Instruction.growth_generic,
        hoperands, GenericOp.growth, constants_cons, constants_nil, Operand.isImmediate,
        Operand.virtualReg]
      simp only [Bool.false_eq_true, if_false]
      omega
  | @flip op flipped imm value negated ha hop hflipped hfirst hn hvalue hnegated hfits =>
    refine ⟨?_, by simp⟩
    obtain ⟨hlength, hget⟩ := List.getElem?_eq_some_iff.mp hn
    have hcount : constants (i.operands.set 2 (imm.setImmediate negated)) ≤ constants i.operands := by
      have himm : imm.isImmediate := Operand.isImmediate_iff.mpr ⟨value, hvalue⟩
      have hpos : 0 < constants i.operands :=
        List.countP_pos_iff.mpr ⟨imm, List.mem_of_getElem? hn, himm⟩
      rw [constants] at hpos ⊢
      rw [List.countP_set hlength, hget, himm]
      simp only [if_true, constants]
      split <;> omega
    rcases hflipped with ⟨rfl, rfl⟩ | ⟨rfl, rfl⟩
    all_goals
      simp only [weight_cons, weight_nil, Instruction.growth_eq hop, GenericOp.growth]
      exact Nat.succ_le_succ hcount
  | address ha hop hoperands hsymbol =>
    refine ⟨?_, by simp⟩
    have hadrp : ∀ os, (AArch64.Op.adrp.on os).markExpanded.growth = 0 := fun _ => rfl
    simp only [weight_cons, weight_nil, hadrp, Instruction.growth_eq hop,
      Instruction.growth_generic, hoperands, GenericOp.growth, constants_cons, constants_nil,
      Operand.isImmediate, Operand.global]
    simp only [Bool.false_eq_true, if_false]
    omega
  | @swap relation dest lhs rhs ha hop hrelation hswap hoperands hlhs =>
    refine ⟨?_, by simp⟩
    rw [Instruction.growth_eq hop, hrelation, hoperands]
    rcases hswap with rfl | rfl <;>
      simp only [weight_cons, weight_nil, growth_compare, Relation.swapped, GenericOp.growth,
        constants_cons, constants_nil] <;> omega
  | notLess ha hop hrelation hoperands hlhs | equal ha hop hrelation hoperands hlhs
  | different ha hop hrelation hoperands hlhs =>
    refine ⟨?_, by simp⟩
    simp only [weight_cons, weight_nil, Instruction.growth_eq hop, hrelation, hoperands,
      growth_compare, growth_exclusiveOr, GenericOp.growth, constants_cons, constants_nil,
      Operand.isImmediate, Operand.virtualReg, Operand.physicalReg, Operand.immediate]
    simp only [Bool.false_eq_true, if_false, if_true]
    omega

/-- The ids in use and those that expansions can take. -/
def idDemand (f : Function) : Nat := f.nextId + (f.instructions.map (·.growth)).sum

theorem weight_eq (is : List Instruction) : weight is = (is.map (·.growth)).sum + is.length := by
  induction is with
  | nil => rfl
  | cons i is ih =>
    rw [weight_cons, ih, List.map_cons, List.sum_cons, List.length_cons]
    omega

theorem growth_extendingLoad (load : Instruction) (dest loaded : Operand) (rest : List Operand) :
    (extendingLoad load dest loaded rest).growth = 0 :=
  rfl

section Expand

variable (hi : f.instruction? b k = some i) (hlegal : a.target.isLegal f b k = false)
  (hexpandable : a.target.isExpandable i) (h : a.target.expand f b k = .ok g)
include hi hlegal hexpandable h

theorem weight_expand : weight (g.rest b k) ≤ weight (f.rest b k) := by
  rcases Arch.expand_cases hi hlegal hexpandable h with ⟨used, new, hrewrite, hreplaces, -⟩ |
    ⟨-, load, dest, source, loaded, extra, rest, r, hfolds⟩
  · obtain ⟨after, hf, hg⟩ := hreplaces.rest_eq
    have hweight := hrewrite.weight_le.1
    rw [hf, hg]
    simp only [weight_append, weight_cons, weight_nil]
    omega
  · obtain ⟨hk, hreplaces⟩ := hfolds.replaces
    obtain ⟨after, hf, hg⟩ := hreplaces.rest_eq
    have hf' : f.rest b k = i :: after := by
      rw [← Nat.sub_add_cancel hk, Function.rest_succ, hf]
      rfl
    have hg' : g.rest b k = after := by
      rw [← Nat.sub_add_cancel hk, Function.rest_succ, hg]
      rfl
    rw [hf', hg', weight_cons]
    omega

theorem idDemand_expand : idDemand g ≤ idDemand f := by
  rcases Arch.expand_cases hi hlegal hexpandable h with ⟨used, new, hrewrite, hreplaces, hnext⟩ |
    ⟨-, load, dest, source, loaded, extra, rest, r, hfolds⟩
  · obtain ⟨before, after, hf, hg⟩ := hreplaces.instructions_eq
    obtain ⟨hweight, hused⟩ := hrewrite.weight_le
    rw [weight_eq] at hweight
    rw [idDemand, idDemand, hf, hg, hnext]
    simp only [List.map_append, List.sum_append, List.map_cons, List.map_nil, List.sum_cons,
      List.sum_nil]
    omega
  · obtain ⟨before, after, hf, hg⟩ := hfolds.replaces.2.instructions_eq
    rw [idDemand, idDemand, hf, hg, hfolds.nextId_eq]
    simp only [List.map_append, List.sum_append, List.map_cons, List.map_nil, List.sum_cons,
      List.sum_nil, growth_extendingLoad]
    omega

end Expand

end Retarget.Target

namespace Retarget.Machine.Function

open Target

variable {a : Arch} {f g : Function} {b k : Nat}

theorem rank_le (t : Target) (b k : Nat) (f : Function) : f.rank t b k ≤ 4 := by
  rw [rank]
  split
  · decide
  · split
    · decide
    · next i _ =>
      have hrank := i.rank_cases
      split
      · omega
      · decide

/-- No limit on expansions from the rank of the position on plays a part. -/
theorem settle_eq_of_rank {n rounds rounds' : Nat} (hrank : f.rank a.target b k ≤ n)
    (hn : n ≤ rounds) (hn' : n ≤ rounds') :
    settle a.target b k rounds f = settle a.target b k rounds' f := by
  induction n generalizing f rounds rounds' with
  | zero =>
    cases hlegal : a.target.isLegal f b k with
    | true => rw [settle, settle, if_pos hlegal, if_pos hlegal]
    | false =>
      rw [rank, hlegal] at hrank
      rw [settle, settle, hlegal]
      cases hi : f.instruction? b k with
      | none => rfl
      | some i =>
        have hpos := i.rank_pos
        have hexpandable : a.target.isExpandable i = false := by
          cases hexpandable : a.target.isExpandable i with
          | false => rfl
          | true => simp [hi, hexpandable] at hrank; omega
        cases rounds <;> cases rounds' <;> simp [hexpandable]
  | succ n ih =>
    obtain ⟨rounds, rfl⟩ : ∃ m, rounds = m + 1 := ⟨rounds - 1, by omega⟩
    obtain ⟨rounds', rfl⟩ : ∃ m, rounds' = m + 1 := ⟨rounds' - 1, by omega⟩
    cases hlegal : a.target.isLegal f b k with
    | true => rw [settle, settle, if_pos hlegal, if_pos hlegal]
    | false =>
      rw [settle, settle, hlegal]
      cases hi : f.instruction? b k with
      | none => rfl
      | some i =>
        cases hexpandable : a.target.isExpandable i with
        | false => simp [hexpandable]
        | true =>
          simp only [Bool.false_eq_true, if_false, hexpandable, if_true]
          cases hg : a.target.expand f b k with
          | error e => rfl
          | ok g =>
            have hlt := rank_expand hi hlegal hexpandable hg
            exact ih (by omega) (by omega) (by omega)

/-! ## Limits -/

/-- `legalizeFrom` with another limit on the expansions of one position. -/
def legalizeFromWithin (t : Target) (rounds b : Nat) : Nat → Nat → Function → Result Function
  | 0, k, f =>
    match f.instruction? b k with
    | none => .ok f
    | some i => .error (f.illegal i)
  | budget + 1, k, f =>
    if k < f.blockLength b then do
      let f ← settle t b k rounds f
      legalizeFromWithin t rounds b budget (k + 1) f
    else .ok f

/-- `legalize` with other limits: `rounds` on the expansions of one position, and `extra` more on the
instructions of a block. -/
def legalizeWithin (t : Target) (rounds extra : Nat) (f : Function) : Result Function :=
  (List.range f.blocks.length).foldlM
    (fun f b => legalizeFromWithin t rounds b (f.expansionBudget b + extra) 0 f) f

theorem legalizeFrom_eq (t : Target) (b budget k : Nat) (f : Function) :
    legalizeFrom t b budget k f = legalizeFromWithin t maxExpansions b budget k f := by
  induction budget generalizing k f with
  | zero => rfl
  | succ budget ih =>
    rw [legalizeFrom, legalizeFromWithin]
    simp only [ih]

theorem weight_tail_le {is : List Instruction} {n : Nat} (h : weight is ≤ n + 1) :
    weight is.tail ≤ n := by
  cases is with
  | nil => exact Nat.zero_le n
  | cons i is =>
    rw [weight_cons] at h
    rw [List.tail_cons]
    omega

theorem weight_settle {rounds n : Nat} (hn : weight (f.rest b k) ≤ n + 1)
    (h : settle a.target b k rounds f = .ok g) : weight (g.rest b (k + 1)) ≤ n := by
  rw [rest_succ]
  refine weight_tail_le (settle_keeps (Q := fun h => weight (h.rest b k) ≤ n + 1) ?_ hn h).1
  exact fun f g i hf hi hlegal hexpandable hg =>
    Nat.le_trans (weight_expand hi hlegal hexpandable hg) hf

theorem legalizeFromWithin_of_weight {t : Target} {rounds budget : Nat}
    (h : weight (f.rest b k) ≤ 0) : legalizeFromWithin t rounds b budget k f = .ok f := by
  have hrest : f.rest b k = [] := by
    have := length_le_weight (f.rest b k)
    exact List.length_eq_zero_iff.mp (by omega)
  have hnone : f.instruction? b k = none := by
    rw [instruction?_eq_head?, hrest]
    rfl
  cases budget with
  | zero => rw [legalizeFromWithin, hnone]
  | succ budget =>
    have hlength := instruction?_eq_none_iff.mp hnone
    rw [legalizeFromWithin, if_neg (by omega)]

/-- Limits that cover what there is to expand do not play a part. -/
theorem legalizeFromWithin_eq {rounds rounds' budget budget' : Nat} (hrounds : 4 ≤ rounds)
    (hrounds' : 4 ≤ rounds') (hbudget : weight (f.rest b k) ≤ budget)
    (hbudget' : weight (f.rest b k) ≤ budget') :
    legalizeFromWithin a.target rounds b budget k f =
      legalizeFromWithin a.target rounds' b budget' k f := by
  induction budget generalizing f k budget' with
  | zero => rw [legalizeFromWithin_of_weight hbudget, legalizeFromWithin_of_weight hbudget]
  | succ budget ih =>
    cases budget' with
    | zero => rw [legalizeFromWithin_of_weight hbudget', legalizeFromWithin_of_weight hbudget']
    | succ budget' =>
      rw [legalizeFromWithin, legalizeFromWithin]
      split
      · rw [settle_eq_of_rank (f.rank_le a.target b k) hrounds hrounds']
        cases hsettle : settle a.target b k rounds' f with
        | error e => rfl
        | ok g =>
          exact ih (weight_settle hbudget hsettle) (weight_settle hbudget' hsettle)
      · rfl

/-! ## Failures -/

/-- Legalization stops with `e` at an instruction that cannot be expanded, or whose expansion fails. -/
structure Stops (t : Target) (f : Function) (b k : Nat) (i : Instruction) (e : Failure) : Prop where
  found : f.instruction? b k = some i
  illegal : t.isLegal f b k = false
  reason : t.isExpandable i = false ∧ e = f.illegal i ∨
    t.isExpandable i ∧ t.expand f b k = .error e

theorem settle_error {rounds : Nat} {e : Failure} {Q : Function → Prop}
    (hexpand : ∀ f g i, Q f → f.instruction? b k = some i → a.target.isLegal f b k = false →
      a.target.isExpandable i → a.target.expand f b k = .ok g → Q g)
    (hf : Q f) (hrounds : f.rank a.target b k ≤ rounds)
    (h : settle a.target b k rounds f = .error e) : ∃ f' i, Q f' ∧ Stops a.target f' b k i e := by
  induction rounds generalizing f with
  | zero =>
    rw [settle] at h
    split at h
    · cases h
    · next hlegal =>
      have hlegal : a.target.isLegal f b k = false := by simpa using hlegal
      split at h
      · cases h
      · next i hi =>
        cases h
        have hpos := i.rank_pos
        have hexpandable : a.target.isExpandable i = false := by
          cases hexpandable : a.target.isExpandable i with
          | false => rfl
          | true =>
            simp [rank, hlegal, hi, hexpandable] at hrounds
            omega
        exact ⟨f, i, hf, hi, hlegal, .inl ⟨hexpandable, rfl⟩⟩
  | succ rounds ih =>
    rw [settle] at h
    split at h
    · cases h
    · next hlegal =>
      have hlegal : a.target.isLegal f b k = false := by simpa using hlegal
      split at h
      · cases h
      · next i hi =>
        dsimp only at h
        split at h
        · next hexpandable =>
          cases hg : a.target.expand f b k with
          | error e' =>
            rw [hg] at h
            cases h
            exact ⟨f, i, hf, hi, hlegal, .inr ⟨hexpandable, hg⟩⟩
          | ok g =>
            rw [hg] at h
            have hlt := rank_expand hi hlegal hexpandable hg
            exact ih (hexpand f g i hf hi hlegal hexpandable hg) (by omega) h
        · next hexpandable =>
          cases h
          exact ⟨f, i, hf, hi, hlegal, .inl ⟨by simpa using hexpandable, rfl⟩⟩

theorem legalizeFrom_error {budget : Nat} {e : Failure} {R : Nat → Nat → Function → Prop}
    (hR : KeptBy a.target R) (hf : R b k f) (hbudget : weight (f.rest b k) ≤ budget)
    (h : legalizeFrom a.target b budget k f = .error e) :
    ∃ f' k' i, R b k' f' ∧ Stops a.target f' b k' i e := by
  induction budget generalizing f k with
  | zero =>
    rw [legalizeFrom_eq, legalizeFromWithin_of_weight hbudget] at h
    cases h
  | succ budget ih =>
    rw [legalizeFrom] at h
    split at h
    · cases hsettle : settle a.target b k maxExpansions f with
      | error e' =>
        rw [hsettle] at h
        cases h
        have hrank : f.rank a.target b k ≤ maxExpansions :=
          Nat.le_trans (f.rank_le a.target b k) (by decide)
        obtain ⟨f', i, hf', hstops⟩ := settle_error (fun _ _ _ => hR.expand) hf hrank hsettle
        exact ⟨f', k, i, hf', hstops⟩
      | ok g =>
        rw [hsettle] at h
        exact ih (hR.settle hf hsettle) (weight_settle hbudget hsettle) h
    · cases h

/-- **Only an instruction stops legalization**, never a limit. -/
theorem legalize_error {e : Failure} {R : Nat → Nat → Function → Prop} (hR : KeptBy a.target R)
    (hweight : ∀ b f, R b 0 f → weight (f.rest b 0) ≤ f.expansionBudget b) (hf : R 0 0 f)
    (h : f.legalize a.target = .error e) :
    ∃ f' b k i, R b k f' ∧ Stops a.target f' b k i e := by
  rw [legalize] at h
  obtain ⟨b, f', hf', h⟩ := foldlM_range_eq_error (R := fun b => R b 0) hf
    (fun _ _ _ hf h => hR.legalizeFrom hf h) h
  obtain ⟨f'', k, i, hf'', hstops⟩ := legalizeFrom_error hR hf' (hweight b f' hf') h
  exact ⟨f'', b, k, i, hf'', hstops⟩

end Retarget.Machine.Function
