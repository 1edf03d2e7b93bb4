import Mathlib.Control.Monad.Basic
import Retarget.Proofs.Legality.Expansion

/-!
# Legalization reaches a fixed point

Legalization passes every position once, so what it leaves behind has to stay legal.  Only the
legality of a zero extension depends on more than the instruction itself: it must not be foldable
into the load before it, which asks how often the whole function mentions the loaded register.
Expansions never make that number smaller, as long as zero extensions and addresses do not name
registers behind the two operands that they have (`Tidy`).
-/

namespace Retarget.Machine

/-- A zero extension or an address names no id behind its second operand. -/
def Instruction.Tidy (i : Instruction) : Prop :=
  i.isGeneric .zext ∨ i.isGeneric .globalAddress →
    ∀ o ∈ i.operands.drop 2, o.unallocated? = none

instance (i : Instruction) : Decidable i.Tidy :=
  inferInstanceAs (Decidable (i.isGeneric .zext ∨ i.isGeneric .globalAddress →
    ∀ o ∈ i.operands.drop 2, o.unallocated? = none))

namespace Function

/-- All zero extensions and addresses are tidy. -/
def Tidy (f : Function) : Prop := f.All (·.Tidy)

instance (f : Function) : Decidable f.Tidy :=
  inferInstanceAs (Decidable (∀ i ∈ f.instructions, i.Tidy))

/-- Every position before `(b, k)` is legal. -/
def Settled (t : Target) (b k : Nat) (f : Function) : Prop :=
  ∀ c n, c < b ∨ c = b ∧ n < k → t.isLegal f c n

end Function

namespace Operand

theorem unallocated?_of_isImmediate {o : Operand} (h : o.isImmediate) : o.unallocated? = none := by
  obtain ⟨kind, ty, regClass⟩ := o
  cases kind <;> first | rfl | cases h

theorem unallocated?_of_symbol? {o : Operand} {name : String} (h : o.symbol? = some name) :
    o.unallocated? = none := by
  obtain ⟨kind, ty, regClass⟩ := o
  cases kind <;> first | rfl | cases h

end Operand

end Retarget.Machine

namespace Retarget.Target

open Machine

variable {a : Arch} {f g : Function} {b k : Nat} {i : Instruction}

/-! ## Mentions -/

theorem countP_set_of_not {α : Type} {p : α → Bool} {l : List α} {n : Nat} {a : α}
    (h : l[n]? = some a) (ha : p a = false) (x : α) : l.countP p ≤ (l.set n x).countP p := by
  obtain ⟨hn, rfl⟩ := List.getElem?_eq_some_iff.mp h
  rw [List.countP_set hn, ha]
  simp

/-- Instead of an instruction that is tidy there are ones that mention every id at least as often. -/
theorem Rewrite.occurrences_le {next used : Nat} {new : List Instruction}
    (h : Rewrite a next i used new) (hi : i.Tidy) (r : RegId) :
    occurrences [i] r ≤ occurrences new r := by
  cases h with
  | @materialize op n imm hop huse hn himm =>
    have hcount := countP_set_of_not (p := (·.unallocated? == some r)) hn
      (by simp [Operand.unallocated?_of_isImmediate himm]) (.virtualReg next imm.ty)
    simp only [occurrences_cons, occurrences_nil, Instruction.operands_replaceOperand]
    omega
  | @flip op flipped imm value negated ha hop hflipped hfirst hn hvalue hnegated hfits =>
    have himm := Operand.isImmediate_iff.mpr ⟨value, hvalue⟩
    have hcount := countP_set_of_not (p := (·.unallocated? == some r)) hn
      (by simp [Operand.unallocated?_of_isImmediate himm]) (imm.setImmediate negated)
    simpa using hcount
  | @convert op dest source value folded hop hconversion hoperands hvalue hfolded =>
    have hsource := Operand.unallocated?_of_isImmediate (Operand.isImmediate_iff.mpr ⟨value, hvalue⟩)
    simp [hoperands, hsource, loadImmediate, Instruction.markExpanded, List.countP_cons]
  | @address dest source rest symbol ha hop hoperands hsymbol =>
    have hcode := Instruction.isGeneric_iff.mpr (Instruction.generic?_eq_some hop)
    have hrest : rest.countP (·.unallocated? == some r) = 0 := by
      refine List.countP_eq_zero.mpr fun o ho => ?_
      simp [hi (.inr hcode) o (by simpa [hoperands] using ho)]
    simp only [occurrences_cons, occurrences_nil, hoperands, List.countP_cons, hrest,
      Operand.unallocated?_of_symbol? hsymbol, AArch64.Op.on, Instruction.markExpanded,
      Instruction.operands_addFlags, Instruction.operands_native, Instruction.operands_generic]
    simp
    omega
  | remainder ha hop hdivision hoperands hlhs | swap ha hop hrelation hswap hoperands hlhs
  | notLess ha hop hrelation hoperands hlhs | equal ha hop hrelation hoperands hlhs
  | different ha hop hrelation hoperands hlhs =>
    simp only [occurrences_cons, occurrences_nil, hoperands, List.countP_cons, List.countP_nil,
      Riscv.compare, Riscv.exclusiveOr, Instruction.markExpanded, Instruction.operands_withRelation,
      Instruction.operands_addFlags, Instruction.operands_generic]
    omega

theorem mentions_of_replaces {old new : List Instruction} (h : f.Replaces b k old new g)
    (r : RegId) : mentions g r + occurrences old r = mentions f r + occurrences new r := by
  obtain ⟨before, after, hf, hg⟩ := h.instructions_eq
  rw [mentions, mentions, hf, hg]
  simp only [occurrences_append]
  omega

theorem two_le_mentions {load zext : Instruction} {source : Operand} {r : RegId}
    (hload : f.instruction? b k = some load) (hzext : f.instruction? b (k + 1) = some zext)
    (hr : load.def?.bind (·.unallocated?) = some r) (hsource : zext.operand? 1 = some source)
    (hkind : source.kind = .virtualReg r) : 2 ≤ mentions f r := by
  obtain ⟨block, before, after, hblock, hcode, -⟩ := Function.exists_split₂ hload hzext
  have hmentions := mentions_of_replaces (.splice hblock [load, zext] [] hcode) r
  have hloaded : 0 < load.operands.countP (·.unallocated? == some r) := by
    obtain ⟨loaded, hloaded, hr⟩ := Option.bind_eq_some_iff.mp hr
    rw [Instruction.def?] at hloaded
    split at hloaded
    · exact List.countP_pos_iff.mpr ⟨loaded, List.mem_of_head? hloaded, by simpa using hr⟩
    · cases hloaded
  have hread : 0 < zext.operands.countP (·.unallocated? == some r) :=
    List.countP_pos_iff.mpr ⟨source, List.mem_of_getElem? hsource,
      by simp [Operand.unallocated?, hkind]⟩
  simp only [occurrences_cons, occurrences_nil] at hmentions
  omega

section Folds

variable {load zext : Instruction} {dest source loaded : Operand} {extra rest : List Operand}
  {r : RegId} (h : Folds f b k g load zext dest source loaded extra rest r)
include h

theorem Folds.mentions_add (r' : RegId) :
    mentions g r' + (if r' = r then 2 else 0) + extra.countP (·.unallocated? == some r') =
      mentions f r' := by
  have hmentions := mentions_of_replaces h.replaces.2 r'
  have hsource : source.unallocated? = some r := by simp [Operand.unallocated?, h.reads]
  simp only [occurrences_cons, occurrences_nil, h.loadOperands, h.zextOperands, extendingLoad,
    Instruction.markExpanded, Instruction.operands_addFlags, Instruction.operands_withOperands,
    List.countP_cons, h.loads, hsource] at hmentions
  by_cases hr : r' = r
  · subst hr
    simp [Operand.unallocated?, Operand.immediate] at hmentions ⊢
    omega
  · simp [Operand.unallocated?, Operand.immediate, hr, Ne.symm hr] at hmentions ⊢
    omega

theorem Folds.mentions_le (htidy : zext.Tidy) {r' : RegId} (hr' : mentions g r' ≠ 0) :
    mentions f r' ≤ mentions g r' := by
  have hcode := Instruction.isGeneric_iff.mpr (Instruction.generic?_eq_some h.isZext)
  have hextra : extra.countP (·.unallocated? == some r') = 0 := by
    refine List.countP_eq_zero.mpr fun o ho => ?_
    simp [htidy (.inl hcode) o (by simpa [h.zextOperands] using ho)]
  have hmentions := h.mentions_add r'
  have htwo := h.mentions_eq
  by_cases hr : r' = r
  · subst hr
    rw [if_pos rfl] at hmentions
    omega
  · rw [if_neg hr] at hmentions
    omega

end Folds

/-! ## Tidiness -/

theorem Rewrite.tidy {next used : Nat} {new : List Instruction} (h : Rewrite a next i used new) :
    ∀ j ∈ new, j.Tidy := by
  intro j hj hcode
  simp only [Instruction.isGeneric_iff] at hcode
  rcases hcode with hcode | hcode <;>
    simpa [GenericOp.isThreeAddress] using h.generic?_cases hj (congrArg Opcode.generic? hcode)

theorem Rewrites.tidy (h : Rewrites a f b k i g) (hf : f.Tidy) : g.Tidy := by
  obtain ⟨used, new, hrewrite, hreplaces, -⟩ := h
  exact hreplaces.all hf hrewrite.tidy

theorem Folds.tidy {load zext : Instruction} {dest source loaded : Operand}
    {extra rest : List Operand} {r : RegId}
    (h : Folds f b k g load zext dest source loaded extra rest r) (hf : f.Tidy) : g.Tidy := by
  refine h.replaces.2.all hf ?_
  rw [List.forall_mem_singleton]
  rintro (hcode | hcode) <;> cases Instruction.isGeneric_iff.mp hcode

/-! ## Positions that stay legal -/

namespace AArch64

/-- A zero extension does not become foldable when nothing mentions its register less often. -/
theorem isFoldableZext_of_mentions {c n : Nat} (h : isFoldableZext g c n)
    (hsame : ∀ m ≤ n, g.instruction? c m = f.instruction? c m)
    (hmentions : ∀ r, mentions g r ≠ 0 → mentions f r ≤ mentions g r) : isFoldableZext f c n := by
  obtain ⟨zext, load, source, r, hn, hzext, hload, hcode, hr, hsource, hkind, hcount⟩ :=
    isFoldableZext_iff.mp h
  rw [hsame n (Nat.le_refl n)] at hzext
  rw [hsame (n - 1) (by omega)] at hload
  refine isFoldableZext_iff.mpr
    ⟨zext, load, source, r, hn, hzext, hload, hcode, hr, hsource, hkind, ?_⟩
  have hle := hmentions r (by omega)
  have htwo := two_le_mentions hload (by rwa [Nat.sub_add_cancel hn]) hr hsource hkind
  omega

theorem isLegal_of_isFoldableZext {c n : Nat} (h : isLegal f c n)
    (hsame : g.instruction? c n = f.instruction? c n)
    (hfold : isFoldableZext g c n → isFoldableZext f c n) : isLegal g c n := by
  rw [isLegal] at h ⊢
  rw [hsame]
  split at h
  · rfl
  · split at h
    · rfl
    · next op _ =>
      dsimp only at h ⊢
      split at h
      · cases h
      · next hconstants =>
        rw [if_neg hconstants]
        cases op with
        | zext =>
          rw [Bool.not_eq_true'] at h ⊢
          exact Bool.eq_false_iff.mpr fun hg => by simp [hfold hg] at h
        | _ => exact h

theorem isLegal_of_none {c n : Nat} (h : f.instruction? c n = none) : isLegal f c n := by
  rw [isLegal, h]

theorem settled_expand (hf : f.Tidy) (hsettled : f.Settled aarch64 b k)
    (hi : f.instruction? b k = some i) (hlegal : isLegal f b k = false)
    (h : expand f b k = .ok g) : g.Settled aarch64 b k := by
  intro c n hbefore
  have hcn : isLegal f c n := hsettled c n hbefore
  rcases expand_cases hi hlegal h with ⟨used, new, hrewrite, hreplaces, -⟩ |
    ⟨load, dest, source, loaded, extra, rest, r, hfolds⟩
  · have hsame : ∀ m ≤ n, g.instruction? c m = f.instruction? c m :=
      fun m hm => hreplaces.instruction?_eq (by omega)
    refine isLegal_of_isFoldableZext hcn (hsame n (Nat.le_refl n)) fun hfold => ?_
    refine isFoldableZext_of_mentions hfold hsame fun r _ => ?_
    have hmentions := mentions_of_replaces hreplaces r
    have hle := hrewrite.occurrences_le (hf i (Function.mem_of_instruction? hi)) r
    omega
  · obtain ⟨hk, hreplaces⟩ := hfolds.replaces
    by_cases hn : c = b ∧ n = k - 1
    · -- the extending load itself
      obtain ⟨rfl, rfl⟩ := hn
      have hnew : g.instruction? c (k - 1) = some (extendingLoad load dest loaded rest) :=
        hreplaces.instruction?_new (n := 0) (by simp)
      show isLegal g c (k - 1)
      rw [isLegal, hnew]
      rfl
    · have hsame : ∀ m ≤ n, g.instruction? c m = f.instruction? c m :=
        fun m hm => hreplaces.instruction?_eq (by omega)
      refine isLegal_of_isFoldableZext hcn (hsame n (Nat.le_refl n)) fun hfold => ?_
      exact isFoldableZext_of_mentions hfold hsame fun r hr =>
        hfolds.mentions_le (hf i (Function.mem_of_instruction? hi)) hr

end AArch64

namespace Riscv

theorem isLegal_of_none {c n : Nat} (h : f.instruction? c n = none) : isLegal f c n := by
  rw [isLegal, h]

/-- Positions before an expansion stay legal; here an instruction alone decides its legality. -/
theorem settled_expand (hsettled : f.Settled riscv32 b k) (hi : f.instruction? b k = some i)
    (hlegal : isLegal f b k = false) (hexpandable : isExpandable i) (h : expand f b k = .ok g) :
    g.Settled riscv32 b k := by
  intro c n hbefore
  obtain ⟨used, new, -, hreplaces, -⟩ := expand_cases hi hlegal hexpandable h
  have hcn : isLegal f c n := hsettled c n hbefore
  show isLegal g c n
  rw [isLegal, hreplaces.instruction?_eq (by omega)]
  exact hcn

end Riscv

end Retarget.Target

namespace Retarget

open Machine

variable {a : Arch} {f g : Function}

/-- What legalization keeps between its steps. -/
structure Arch.Passed (a : Arch) (blocks b k : Nat) (f : Function) : Prop where
  tidy : a = .aarch64 → f.Tidy
  length : f.blocks.length = blocks
  settled : f.Settled a.target b k

theorem Arch.isLegal_of_none {b k : Nat} (h : f.instruction? b k = none) :
    a.target.isLegal f b k := by
  cases a with
  | aarch64 => exact Target.AArch64.isLegal_of_none h
  | riscv32 => exact Target.Riscv.isLegal_of_none h

theorem Arch.Passed.expand {blocks b k : Nat} {i : Instruction} (hf : a.Passed blocks b k f)
    (hi : f.instruction? b k = some i) (hlegal : a.target.isLegal f b k = false)
    (hexpandable : a.target.isExpandable i) (h : a.target.expand f b k = .ok g) :
    a.Passed blocks b k g := by
  have hsettled : g.Settled a.target b k := by
    cases a with
    | aarch64 => exact Target.AArch64.settled_expand (hf.tidy rfl) hf.settled hi hlegal h
    | riscv32 => exact Target.Riscv.settled_expand hf.settled hi hlegal hexpandable h
  rcases Arch.expand_cases hi hlegal hexpandable h with hrewrites |
    ⟨ha, load, dest, source, loaded, extra, rest, r, hfolds⟩
  · refine ⟨fun ha => hrewrites.tidy (hf.tidy ha), ?_, hsettled⟩
    obtain ⟨used, new, -, hreplaces, -⟩ := hrewrites
    rw [hreplaces.length_blocks, hf.length]
  · refine ⟨fun ha => hfolds.tidy (hf.tidy ha), ?_, hsettled⟩
    rw [hfolds.replaces.2.length_blocks, hf.length]

theorem Arch.keptBy_passed (a : Arch) (blocks : Nat) :
    Function.KeptBy a.target (a.Passed blocks) where
  expand hf hi hlegal hexpandable h := hf.expand hi hlegal hexpandable h
  next := by
    intro f b k hf hk
    have hlegal : a.target.isLegal f b k := hk.elim id Arch.isLegal_of_none
    refine ⟨hf.tidy, hf.length, fun c n hbefore => ?_⟩
    by_cases hn : c = b ∧ n = k
    · obtain ⟨rfl, rfl⟩ := hn
      exact hlegal
    · exact hf.settled c n (by omega)
  nextBlock := by
    intro f b k hf hnone
    refine ⟨hf.tidy, hf.length, fun c n hbefore => ?_⟩
    by_cases hn : c = b ∧ k ≤ n
    · obtain ⟨rfl, hn⟩ := hn
      rw [Function.instruction?_eq_none_iff] at hnone
      exact Arch.isLegal_of_none (Function.instruction?_eq_none_iff.mpr (Nat.le_trans hnone hn))
    · exact hf.settled c n (by omega)

namespace Machine.Function

/-! ## Legal functions -/

theorem blockLength_le_expansionBudget (f : Function) (b : Nat) :
    f.blockLength b ≤ f.expansionBudget b := by
  rw [blockLength, expansionBudget]
  cases f.blocks[b]? with
  | none => exact Nat.le_refl 0
  | some block =>
    dsimp only
    induction block.instructions with
    | nil => exact Nat.le_refl 0
    | cons i is ih =>
      rw [List.length_cons, List.foldr_cons]
      omega

variable {t : Target}

theorem legalizeFrom_eq_self {b budget k : Nat} (h : ∀ n, t.isLegal f b n)
    (hbudget : f.blockLength b ≤ k + budget) : legalizeFrom t b budget k f = .ok f := by
  induction budget generalizing k with
  | zero =>
    have hnone : f.instruction? b k = none := instruction?_eq_none_iff.mpr hbudget
    rw [legalizeFrom, hnone]
  | succ budget ih =>
    rw [legalizeFrom]
    split
    · rw [settle, if_pos (h k), ok_bind]
      exact ih (by omega)
    · rfl

theorem legalize_eq_self (h : ∀ b k, t.isLegal f b k) : f.legalize t = .ok f := by
  rw [legalize]
  induction List.range f.blocks.length with
  | nil => rfl
  | cons b bs ih =>
    have hbudget := f.blockLength_le_expansionBudget b
    rw [List.foldlM_cons, legalizeFrom_eq_self (h b) (by omega), ok_bind, ih]

theorem isLegal_legalize (hf : a = .aarch64 → f.Tidy) (h : f.legalize a.target = .ok g) (b k : Nat) :
    a.target.isLegal g b k := by
  have hpassed : a.Passed f.blocks.length f.blocks.length 0 g :=
    (a.keptBy_passed f.blocks.length).legalize ⟨hf, rfl, fun c n hbefore => by omega⟩ h
  by_cases hb : b < f.blocks.length
  · exact hpassed.settled b k (.inl hb)
  · refine Arch.isLegal_of_none ?_
    rw [instruction?, List.getElem?_eq_none (by rw [hpassed.length]; omega)]
    rfl

/-- **Legalization reaches a fixed point**: every position of the result is legal, and legalizing it
again changes nothing. -/
theorem legalize_fixedPoint (a : Arch) (f g : Function) (hf : a = .aarch64 → f.Tidy)
    (h : f.legalize a.target = .ok g) :
    (∀ b k, a.target.isLegal g b k) ∧ g.legalize a.target = .ok g :=
  ⟨isLegal_legalize hf h, legalize_eq_self (isLegal_legalize hf h)⟩

/-- A load folded into a zero extension, then a remainder by a constant: four expansions. -/
def folding : Function where
  name := "f"
  params := [⟨0, .pointer 64, false, false⟩]
  nextId := 4
  blocks := [⟨"entry", [
    .generic .load [.virtualReg 1 (.integer 32), .memory 0 0 (.integer 32)],
    .generic .zext [.virtualReg 2 (.integer 64), .virtualReg 1 (.integer 32)],
    .generic .mod [.virtualReg 3 (.integer 64), .virtualReg 2 (.integer 64),
      .immediate 7 (.integer 64)],
    .generic .ret [.virtualReg 3 (.integer 64)]]⟩]

theorem folding_fixedPoint : ∃ g, folding.legalize Arch.aarch64.target = .ok g ∧ g ≠ folding ∧
    (∀ b k, Arch.aarch64.target.isLegal g b k) ∧ g.legalize Arch.aarch64.target = .ok g := by
  have hrun : (folding.legalize Arch.aarch64.target).map (fun g => decide (g = folding)) =
      .ok false := by decide +kernel
  obtain ⟨g, hok, hne⟩ := map_eq_ok.mp hrun
  exact ⟨g, hok, of_decide_eq_false hne,
    legalize_fixedPoint .aarch64 folding g (fun _ => by decide) hok⟩

/-- An address with a third operand, which its expansion drops.  The zero extension is passed while
that operand still counts as a mention of the loaded register. -/
def overcounting : Function where
  name := "f"
  params := [⟨0, .pointer 64, false, false⟩]
  nextId := 4
  blocks := [⟨"entry", [
    .generic .load [.virtualReg 1 (.integer 32), .memory 0 0 (.integer 32)],
    .generic .zext [.virtualReg 2 (.integer 64), .virtualReg 1 (.integer 32)],
    .generic .globalAddress [.virtualReg 3 (.pointer 64), .global "g" (.pointer 64),
      .virtualReg 1 (.integer 32)]]⟩]

theorem overcounting_not_fixedPoint : ∃ g, overcounting.legalize Arch.aarch64.target = .ok g ∧
    Arch.aarch64.target.isLegal g 0 1 = false ∧ g.legalize Arch.aarch64.target ≠ .ok g := by
  have hrun : (overcounting.legalize Arch.aarch64.target).map (fun g =>
      (Arch.aarch64.target.isLegal g 0 1, decide (g.legalize Arch.aarch64.target = .ok g))) =
      .ok (false, false) := by decide +kernel
  obtain ⟨g, hok, heq⟩ := map_eq_ok.mp hrun
  rw [Prod.mk.injEq, decide_eq_false_iff_not] at heq
  exact ⟨g, hok, heq⟩

end Machine.Function

end Retarget
