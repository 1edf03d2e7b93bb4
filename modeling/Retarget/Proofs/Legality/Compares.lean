import Retarget.Proofs.Legality.Preservation
import Retarget.Proofs.Legality.Progress
import Retarget.Proofs.Lowering.Runs
import Retarget.Proofs.Shape.NativeCode

/-!
# Legal compares

Legalization turns a compare of registers and constants into constants, exclusive ors and compares
for less (`Riscv.Becomes`), wherever it stands, if there are ids left for what is in between
(`Riscv.exists_becomes`).  Each expansion computes the word that the instruction does
(`Riscv.Elementary.reduces`).
-/

namespace Retarget

open Machine

/-! ## Pieces of code -/

namespace Machine.Function

variable {f g h : Function} {b k : Nat} {i : Instruction} {is old new : List Instruction}

/-- The instructions stand at position `k` of block `b`. -/
def HasAt (f : Function) (b k : Nat) (is : List Instruction) : Prop :=
  ∃ block before after, f.blocks[b]? = some block ∧
    block.instructions = before ++ (is ++ after) ∧ before.length = k

/-- When legalization comes to the old instructions, it turns them into the new ones and goes on
behind these. -/
structure LegalizesTo (t : Target) (f : Function) (b k : Nat) (old new : List Instruction)
    (g : Function) : Prop where
  replaces : f.Replaces b k old new g
  walk : ∀ budget, legalizeFrom t b (new.length + budget) k f =
    legalizeFrom t b budget (k + new.length) g

theorem hasAt_singleton (hi : f.instruction? b k = some i) : f.HasAt b k [i] := exists_split hi

namespace HasAt

theorem instruction? (hcode : f.HasAt b k (i :: is)) : f.instruction? b k = some i := by
  obtain ⟨block, before, after, hblock, hsplit, rfl⟩ := hcode
  rw [Function.instruction?, hblock]
  show block.instructions[before.length]? = some i
  rw [hsplit, List.getElem?_append_right (Nat.le_refl _), Nat.sub_self]
  rfl

theorem tail (hcode : f.HasAt b k (i :: is)) : f.HasAt b (k + 1) is := by
  obtain ⟨block, before, after, hblock, hsplit, rfl⟩ := hcode
  exact ⟨block, before ++ [i], after, hblock, by simp [hsplit], by simp⟩

theorem refl (hcode : f.HasAt b k is) : f.Replaces b k is is f := by
  obtain ⟨block, before, after, hblock, hsplit, hlength⟩ := hcode
  refine ⟨rfl, rfl, rfl, rfl, block, before, after, hblock, hsplit, hlength, ?_⟩
  obtain ⟨hb, hget⟩ := List.getElem?_eq_some_iff.mp hblock
  rw [← hsplit]
  exact (List.set_getElem_self hb).symm.trans (by rw [hget])

theorem replaces (hcode : f.HasAt b k (old ++ is)) (h : f.Replaces b k old new g) :
    g.HasAt b k (new ++ is) := by
  obtain ⟨block, before, after, hblock, hsplit, rfl⟩ := hcode
  obtain ⟨block', before', after', hblock', hsplit', hlength, hg⟩ := h.code
  cases hblock.symm.trans hblock'
  have hb := (List.getElem?_eq_some_iff.mp hblock).1
  obtain ⟨rfl, htail⟩ := List.append_inj (hsplit'.symm.trans hsplit) hlength
  rw [List.append_assoc, List.append_cancel_left_eq] at htail
  exact ⟨_, before', after, by rw [hg, List.getElem?_set_self hb], by simp [htail], rfl⟩

end HasAt

namespace Replaces

theorem hasAt (hfg : f.Replaces b k old new g) : g.HasAt b k new := by
  obtain ⟨block, before, after, hblock, -, rfl, hg⟩ := hfg.code
  have hb := (List.getElem?_eq_some_iff.mp hblock).1
  exact ⟨_, before, after, by rw [hg, List.getElem?_set_self hb], rfl, rfl⟩

theorem append (hfg : f.Replaces b k old new g) (hcode : f.HasAt b k (old ++ is)) :
    f.Replaces b k (old ++ is) (new ++ is) g := by
  obtain ⟨block, before, after, hblock, hsplit, rfl⟩ := hcode
  obtain ⟨block', before', after', hblock', hsplit', hlength, hg⟩ := hfg.code
  cases hblock.symm.trans hblock'
  obtain ⟨rfl, htail⟩ := List.append_inj (hsplit'.symm.trans hsplit) hlength
  rw [List.append_assoc, List.append_cancel_left_eq] at htail
  refine ⟨hfg.name, hfg.frame, hfg.saved, hfg.caller, block, before', after, hblock, hsplit, rfl,
    ?_⟩
  rw [hg, htail, List.append_assoc]

theorem trans (hfg : f.Replaces b k old is g) (hgh : g.Replaces b k is new h) :
    f.Replaces b k old new h := by
  refine ⟨hgh.name.trans hfg.name, hgh.frame.trans hfg.frame, hgh.saved.trans hfg.saved,
    hgh.caller.trans hfg.caller, ?_⟩
  obtain ⟨block, before, after, hblock, hsplit, hlength, hg⟩ := hfg.code
  obtain ⟨block', before', after', hblock', hsplit', hlength', hh⟩ := hgh.code
  have hb := (List.getElem?_eq_some_iff.mp hblock).1
  rw [hg, List.getElem?_set_self hb] at hblock'
  cases hblock'
  obtain ⟨rfl, htail⟩ := List.append_inj hsplit' (hlength.trans hlength'.symm)
  rw [List.append_cancel_left_eq] at htail
  refine ⟨block, before, after, hblock, hsplit, hlength, ?_⟩
  rw [hh, hg, List.set_set, htail]

theorem cons (hfg : f.Replaces b (k + 1) old new g) (hi : f.instruction? b k = some i) :
    f.Replaces b k (i :: old) (i :: new) g := by
  refine ⟨hfg.name, hfg.frame, hfg.saved, hfg.caller, ?_⟩
  obtain ⟨block, before, after, hblock, hsplit, hlength, hg⟩ := hfg.code
  obtain ⟨front, last, rfl⟩ : ∃ front last, before = front ++ [last] :=
    ⟨_, _, (List.dropLast_append_getLast (by rintro rfl; cases hlength)).symm⟩
  have hk : front.length = k := by simpa using hlength
  obtain rfl : last = i := by
    rw [Function.instruction?, hblock] at hi
    change block.instructions[k]? = some i at hi
    rw [hsplit, List.append_assoc, ← hk, List.getElem?_append_right (Nat.le_refl _),
      Nat.sub_self] at hi
    exact Option.some.inj hi
  exact ⟨block, front, after, hblock, by simpa using hsplit, hk, by simpa using hg⟩

end Replaces

end Machine.Function

namespace Target.Riscv

variable {f g : Function} {b k next used : Nat} {i : Instruction} {is new : List Instruction}

/-! ## Elementary instructions -/

/-- The function of two words that a compare or an exclusive or computes. -/
def word? (i : Instruction) : Option (BitVec 32 → BitVec 32 → BitVec 32) :=
  match i.generic? with
  | some .cmp => i.relation.map fun r x y => bit 32 (r.holds x y)
  | some .xor => some fun x y => x ^^^ y
  | _ => none

/-- A register or a 32-bit constant, of a type that is no wider than a register. -/
structure IsValue (o : Operand) : Prop where
  kind : o.isRegLike ∨ o.isImmediate
  size : o.size ≤ 32
  word : ∀ v, o.immediate? = some v → -2 ^ 31 ≤ v ∧ v < 2 ^ 32

/-- A register of a type that is no wider than a register of the target. -/
structure IsDestination (o : Operand) : Prop where
  kind : o.isRegLike
  size : o.size ≤ 32

/-- Constants that are loaded, compares and exclusive ors. -/
inductive Elementary (i : Instruction) : Prop
  | constant {dest imm : Operand} (hop : i.generic? = some .loadImm)
      (hoperands : i.operands = [dest, imm]) (hdest : IsDestination dest) (himm : IsValue imm)
      (hconstant : imm.isImmediate)
  | compute {word : BitVec 32 → BitVec 32 → BitVec 32} {dest lhs rhs : Operand}
      (hword : word? i = some word) (hoperands : i.operands = [dest, lhs, rhs])
      (hdest : IsDestination dest) (hlhs : IsValue lhs) (hrhs : IsValue rhs)

theorem word?_cmp {r : Relation} (hop : i.generic? = some .cmp) (hrelation : i.relation = some r) :
    word? i = some fun x y => bit 32 (r.holds x y) := by
  rw [word?, hop, hrelation]
  rfl

theorem generic?_of_word? {word : BitVec 32 → BitVec 32 → BitVec 32} (h : word? i = some word) :
    (i.generic? = some .cmp ∧
      ∃ r, i.relation = some r ∧ word = fun x y => bit 32 (r.holds x y)) ∨
      i.generic? = some .xor ∧ word = fun x y => x ^^^ y := by
  rw [word?] at h
  split at h
  · next hop =>
    obtain ⟨r, hr, rfl⟩ := Option.map_eq_some_iff.mp h
    exact .inl ⟨hop, r, hr, rfl⟩
  · next hop => exact .inr ⟨hop, (Option.some.inj h).symm⟩
  · cases h

theorem word?_eq_none_of {op : GenericOp} (hop : i.generic? = some op) (hcmp : op ≠ .cmp)
    (hxor : op ≠ .xor) : word? i = none := by
  rw [word?, hop]
  cases op <;> first | rfl | exact absurd rfl hcmp | exact absurd rfl hxor

theorem isTooWide_of_sizes (h : ∀ o ∈ i.operands, o.size ≤ 32) : isTooWide i = false := by
  rw [isTooWide, List.any_eq_false]
  intro o ho
  have hsize := h o ho
  simp only [Bool.and_eq_true, decide_eq_true_eq]
  omega

theorem Elementary.not_isTooWide (h : Elementary i) : isTooWide i = false := by
  refine isTooWide_of_sizes fun o ho => ?_
  cases h with
  | constant hop hoperands hdest himm hconstant =>
    rw [hoperands, List.mem_pair] at ho
    rcases ho with rfl | rfl
    exacts [hdest.size, himm.size]
  | compute hword hoperands hdest hlhs hrhs =>
    simp only [hoperands, List.mem_cons, List.not_mem_nil, or_false] at ho
    rcases ho with rfl | rfl | rfl
    exacts [hdest.size, hlhs.size, hrhs.size]

/-! ## Legality -/

theorem isLegal_congr {c n : Nat} (h : f.instruction? b k = g.instruction? c n) :
    isLegal f b k = isLegal g c n := by
  rw [isLegal, isLegal, h]

theorem isLegal_constant (hi : f.instruction? b k = some i)
    (hop : i.generic? = some .loadImm) (hwide : isTooWide i = false) : isLegal f b k := by
  rw [isLegal, hi]
  simp [hop, hwide, Instruction.hasImmediateFirstSource,
    Instruction.isConstantConversion, GenericOp.isFloat, GenericOp.isThreeAddress,
    GenericOp.isWidthConversion]

/-! ## Expansion -/

theorem exists_materialize {n : Nat} {imm : Operand} (hi : f.instruction? b k = some i)
    (hn : i.operand? n = some imm) (himm : imm.isImmediate) (hroom : f.nextId + 1 < 2 ^ 32) :
    ∃ g, materialize f b k n = .ok g := by
  have hfresh := Lowering.fresh_eq_ok_iff.mpr ⟨hroom, rfl⟩
  rw [materialize, Function.instructionAt_eq hi, ok_bind, hn]
  simp only [Option.filter_some, himm, if_true, orFail, ok_bind, hfresh]
  exact ⟨_, rfl⟩

theorem exists_expandCompare {r : Relation} {dest lhs rhs : Operand}
    (hi : f.instruction? b k = some i) (hrelation : i.relation = some r)
    (hoperands : i.operands = [dest, lhs, rhs]) (hroom : f.nextId + 1 < 2 ^ 32)
    (himm : r = .lt ∨ r = .ltu → rhs.isImmediate) : ∃ g, expandCompare f b k i = .ok g := by
  have hrhs : i.operand? 2 = some rhs := by
    rw [Instruction.operand?, hoperands]
    rfl
  rw [expandCompare, hrelation, hoperands]
  cases r with
  | gt | le => exact ⟨_, rfl⟩
  | ge | eq | ne =>
    simp only [Lowering.fresh_eq_ok_iff.mpr ⟨hroom, rfl⟩, ok_bind]
    exact ⟨_, rfl⟩
  | lt => exact exists_materialize hi hrhs (himm (.inl rfl)) hroom
  | ltu => exact exists_materialize hi hrhs (himm (.inr rfl)) hroom

section Compute

variable {word : BitVec 32 → BitVec 32 → BitVec 32} {dest lhs rhs : Operand}
  (hi : f.instruction? b k = some i) (hword : word? i = some word)
  (hoperands : i.operands = [dest, lhs, rhs])
include hword hoperands

theorem hasImmediateFirstSource_of_word? : i.hasImmediateFirstSource = lhs.isImmediate := by
  rcases generic?_of_word? hword with ⟨hop, -⟩ | ⟨hop, -⟩ <;>
    simp [Instruction.hasImmediateFirstSource, hop, Instruction.operand?, hoperands,
      GenericOp.isThreeAddress]

omit hoperands in
theorem not_isConstantConversion_of_word? : i.isConstantConversion = false := by
  rcases generic?_of_word? hword with ⟨hop, -⟩ | ⟨hop, -⟩ <;>
    simp [Instruction.isConstantConversion, hop, GenericOp.isWidthConversion]

include hi

/-- A compare for less and an exclusive or are legal with a register and a register or a short
constant. -/
theorem isLegal_compute_iff (hwide : isTooWide i = false) :
    isLegal f b k ↔ lhs.isImmediate = false ∧
      (i.generic? = some .cmp → i.relation = some .lt ∨ i.relation = some .ltu) ∧
      ∀ v, rhs.immediate? = some v → Word.fitsSigned v 12 := by
  have hfirst := hasImmediateFirstSource_of_word? hword hoperands
  have hconversion := not_isConstantConversion_of_word? hword
  have hsecond : i.secondImmediate? = rhs.immediate? := by
    rw [Instruction.secondImmediate?, Instruction.operand?, hoperands]
    rfl
  rw [isLegal, hi]
  rcases generic?_of_word? hword with ⟨hop, -⟩ | ⟨hop, -⟩ <;>
    cases hlhs : lhs.isImmediate <;>
    simp [hop, hwide, hfirst, hconversion, hsecond, hlhs, GenericOp.isFloat, Option.all_eq_true]

theorem growth_pos_of_not_isLegal (hwide : isTooWide i = false) (hlegal : isLegal f b k = false) :
    0 < i.growth := by
  rw [Bool.eq_false_iff, Ne, isLegal_compute_iff hi hword hoperands hwide] at hlegal
  by_contra hzero
  have hregisters : constants [dest, lhs, rhs] = 0 → lhs.isImmediate = false ∧
      ∀ v, rhs.immediate? = some v → Word.fitsSigned v 12 := by
    intro hnone
    have hall := List.countP_eq_zero.mp hnone
    refine ⟨by simpa using hall lhs (by simp), fun v hv => ?_⟩
    exact absurd (Operand.isImmediate_iff.mpr ⟨v, hv⟩) (hall rhs (by simp))
  rcases generic?_of_word? hword with ⟨hop, r, hrelation, -⟩ | ⟨hop, -⟩
  · rw [Instruction.growth_eq hop, hoperands, hrelation] at hzero
    cases r with
    | lt | ltu =>
      obtain ⟨hlhs, hrhs⟩ := hregisters (Nat.eq_zero_of_not_pos hzero)
      exact hlegal ⟨hlhs, fun _ => by simp [hrelation], hrhs⟩
    | _ => exact hzero (Nat.lt_of_lt_of_le Nat.two_pos (Nat.le_add_right 2 _))
  · rw [Instruction.growth_eq hop, hoperands] at hzero
    obtain ⟨hlhs, hrhs⟩ := hregisters (Nat.eq_zero_of_not_pos hzero)
    exact hlegal ⟨hlhs, (fun hcmp => by cases hop.symm.trans hcmp), hrhs⟩

omit hi hword in
theorem growth_compare_le {r : Relation} (hop : i.generic? = some .cmp)
    (hrelation : i.relation = some r) (hdest : IsDestination dest) : i.growth ≤ 4 := by
  have hdest' : dest.isImmediate = false := by
    obtain ⟨kind, ty, regClass⟩ := dest
    cases kind with
    | immediate v => cases hdest.kind
    | _ => rfl
  have hconstants : constants [dest, lhs, rhs] ≤ 2 := by
    rw [constants_cons, hdest']
    exact List.countP_le_length
  rw [Instruction.growth_eq hop, hrelation, hoperands]
  cases r <;> simp only [GenericOp.growth] <;> omega

/-- What is not legal can be expanded while there are ids. -/
theorem exists_expand_compute (hwide : isTooWide i = false) (hlegal : isLegal f b k = false)
    (hroom : f.nextId + i.growth < 2 ^ 32) : isExpandable i ∧ ∃ g, expand f b k = .ok g := by
  have hfirst := hasImmediateFirstSource_of_word? hword hoperands
  have hconversion := not_isConstantConversion_of_word? hword
  have hgrowth := growth_pos_of_not_isLegal hi hword hoperands hwide hlegal
  have hroom : f.nextId + 1 < 2 ^ 32 := by omega
  have hexpandable : isExpandable i := by
    rw [isExpandable]
    rcases generic?_of_word? hword with ⟨hop, -⟩ | ⟨hop, -⟩ <;>
      simp [hop, hwide, GenericOp.isFloat]
  refine ⟨hexpandable, ?_⟩
  rw [expand, hi]
  simp only [orFail, ok_bind, hfirst, hconversion]
  cases hlhs : lhs.isImmediate with
  | true =>
    exact exists_materialize hi (by rw [Instruction.operand?, hoperands]; rfl) hlhs hroom
  | false =>
    -- the second source is a constant that is not short, or the compare is not for less
    rw [Bool.eq_false_iff, Ne, isLegal_compute_iff hi hword hoperands hwide] at hlegal
    have himm : (i.generic? = some .cmp → i.relation = some .lt ∨ i.relation = some .ltu) →
        rhs.isImmediate := by
      intro hless
      by_contra hrhs
      exact hlegal ⟨hlhs, hless, fun v hv =>
        absurd (Operand.isImmediate_iff.mpr ⟨v, hv⟩) hrhs⟩
    rcases generic?_of_word? hword with ⟨hop, r, hrelation, -⟩ | ⟨hop, -⟩
    · rw [hop]
      refine exists_expandCompare hi hrelation hoperands hroom fun hr => himm fun _ => ?_
      rw [hrelation]
      exact hr.imp (congrArg some) (congrArg some)
    · rw [hop]
      exact exists_materialize hi (by rw [Instruction.operand?, hoperands]; rfl)
        (himm fun hcmp => by cases hop.symm.trans hcmp) hroom

end Compute

theorem Elementary.exists_expand (h : Elementary i) (hi : f.instruction? b k = some i)
    (hlegal : isLegal f b k = false) (hroom : f.nextId + i.growth < 2 ^ 32) :
    isExpandable i ∧ ∃ g, expand f b k = .ok g := by
  have hwide := h.not_isTooWide
  cases h with
  | constant hop hoperands hdest himm hconstant =>
    rw [isLegal_constant hi hop hwide] at hlegal
    cases hlegal
  | compute hword hoperands hdest hlhs hrhs =>
    exact exists_expand_compute hi hword hoperands hwide hlegal hroom

/-! ## What expansions leave -/

theorem isValue_register {o : Operand} (h : IsDestination o) : IsValue o where
  kind := .inl h.kind
  size := h.size
  word := by
    obtain ⟨kind, ty, regClass⟩ := o
    intro v hv
    cases kind with
    | immediate v => cases h.kind
    | _ => cases hv

theorem isValue_one {ty : LowType} (h : ty.bits ≤ 32) : IsValue (.immediate 1 ty) where
  kind := .inr rfl
  size := h
  word v hv := by
    cases hv
    decide

theorem not_rewrite_constant (hop : i.generic? = some .loadImm) :
    ¬Rewrite .riscv32 next i used new := by
  intro hnew
  cases hnew with
  | materialize hop' huse hk himm =>
    cases hop.symm.trans hop'
    simp [GenericOp.isThreeAddress] at huse
  | convert hop' hconversion hoperands hvalue hfolded =>
    cases hop.symm.trans hop'
    cases hconversion
  | remainder ha | flip ha | address ha => cases ha
  | swap ha hop' | notLess ha hop' | equal ha hop' | different ha hop' =>
    cases hop.symm.trans hop'

/-- The constant that is loaded is the first or the second source. -/
theorem materialize_cases {word : BitVec 32 → BitVec 32 → BitVec 32} {op : GenericOp} {k : Nat}
    {dest lhs rhs imm : Operand} (hword : word? i = some word)
    (hoperands : i.operands = [dest, lhs, rhs]) (hop : i.generic? = some op)
    (huse : op = .store ∨ (op.isThreeAddress ∨ op = .cmp) ∧ 0 < k)
    (hk : i.operand? k = some imm) (o : Operand) :
    imm = lhs ∧ (i.replaceOperand k o).operands = [dest, o, rhs] ∨
      imm = rhs ∧ (i.replaceOperand k o).operands = [dest, lhs, o] := by
  have hpos : 0 < k := huse.elim (fun hstore => by
    cases (word?_eq_none_of hop (by simp [hstore]) (by simp [hstore])).symm.trans hword) (·.2)
  rw [Instruction.operand?, hoperands] at hk
  rw [Instruction.replaceOperand, Instruction.operands_withOperands, hoperands]
  obtain rfl | rfl : k = 1 ∨ k = 2 := by
    have hlt : k < 3 := (List.getElem?_eq_some_iff.mp hk).1
    omega
  · exact .inl ⟨(Option.some.inj hk).symm, rfl⟩
  · exact .inr ⟨(Option.some.inj hk).symm, rfl⟩

/-- Code that computes a word of two sources in steps that are closer to legal ones, and the number
of new registers in it. -/
inductive Reduces (next : Nat) (word : BitVec 32 → BitVec 32 → BitVec 32)
    (dest lhs rhs : Operand) : Nat → List Instruction → Prop
  /-- The first source is loaded. -/
  | loadFirst {j : Instruction} (hconstant : lhs.isImmediate) (hword : word? j = some word)
      (hoperands : j.operands = [dest, .virtualReg next lhs.ty, rhs]) :
      Reduces next word dest lhs rhs 1 [loadImmediate (.virtualReg next lhs.ty) lhs, j]
  /-- The second source is loaded. -/
  | loadSecond {j : Instruction} (hconstant : rhs.isImmediate) (hword : word? j = some word)
      (hoperands : j.operands = [dest, lhs, .virtualReg next rhs.ty]) :
      Reduces next word dest lhs rhs 1 [loadImmediate (.virtualReg next rhs.ty) rhs, j]
  /-- The sources change places. -/
  | swap {j : Instruction} {swapped : BitVec 32 → BitVec 32 → BitVec 32}
      (hword : word? j = some swapped) (hoperands : j.operands = [dest, rhs, lhs])
      (hsame : ∀ x y, swapped y x = word x y) : Reduces next word dest lhs rhs 0 [j]
  /-- A first word of the sources is taken with the constant one. -/
  | withOne {j j' : Instruction} {first second : BitVec 32 → BitVec 32 → BitVec 32} {ty : LowType}
      (hty : ty.bits ≤ 32) (hfirst : word? j = some first)
      (hj : j.operands = [.virtualReg next ty, lhs, rhs]) (hsecond : word? j' = some second)
      (hj' : j'.operands = [dest, .virtualReg next ty, .immediate 1 ty])
      (hsame : ∀ x y, second (first x y) (.ofInt 32 1) = word x y) :
      Reduces next word dest lhs rhs 1 [j, j']
  /-- The register that is zero is taken with a first word of the sources. -/
  | withZero {j j' : Instruction} {first second : BitVec 32 → BitVec 32 → BitVec 32} {ty : LowType}
      (hty : ty.bits ≤ 32) (hfirst : word? j = some first)
      (hj : j.operands = [.virtualReg next ty, lhs, rhs]) (hsecond : word? j' = some second)
      (hj' : j'.operands = [dest, .physicalReg zero ty, .virtualReg next ty])
      (hsame : ∀ x y, second 0 (first x y) = word x y) :
      Reduces next word dest lhs rhs 1 [j, j']

theorem reduces_of_rewrite {word : BitVec 32 → BitVec 32 → BitVec 32} {dest lhs rhs : Operand}
    (hnew : Rewrite .riscv32 next i used new) (hword : word? i = some word)
    (hoperands : i.operands = [dest, lhs, rhs]) (hdest : dest.size ≤ 32) (hlhs : lhs.size ≤ 32) :
    Reduces next word dest lhs rhs used new := by
  cases hnew with
  | @materialize op k imm hop huse hk himm =>
    have hword' : word? (i.replaceOperand k (.virtualReg next imm.ty)) = some word := hword
    rcases materialize_cases hword hoperands hop huse hk (.virtualReg next imm.ty) with
      ⟨rfl, hnew⟩ | ⟨rfl, hnew⟩
    · exact .loadFirst himm hword' hnew
    · exact .loadSecond himm hword' hnew
  | convert hop hconversion hoperands' => cases hoperands.symm.trans hoperands'
  | remainder ha | flip ha | address ha => cases ha
  | swap ha hop hrelation hswap hoperands' =>
    cases hoperands.symm.trans hoperands'
    cases hword.symm.trans (word?_cmp hop hrelation)
    exact .swap rfl rfl fun x y => by rcases hswap with rfl | rfl <;> rfl
  | notLess ha hop hrelation hoperands' =>
    cases hoperands.symm.trans hoperands'
    cases hword.symm.trans (word?_cmp hop hrelation)
    refine .withOne hdest rfl rfl rfl rfl fun x y => ?_
    have hnot : Relation.ge.holds x y = !Relation.lt.holds x y := BitVec.sle_eq_not_slt
    rw [hnot]
    exact bit_xor_one 32 _
  | equal ha hop hrelation hoperands' =>
    cases hoperands.symm.trans hoperands'
    cases hword.symm.trans (word?_cmp hop hrelation)
    exact .withOne hlhs rfl rfl rfl rfl fun x y => congrArg (bit 32) (ult_one_xor (by decide) x y)
  | different ha hop hrelation hoperands' =>
    cases hoperands.symm.trans hoperands'
    cases hword.symm.trans (word?_cmp hop hrelation)
    exact .withZero hlhs rfl rfl rfl rfl fun x y => congrArg (bit 32) (zero_ult_xor x y)

/-- Of elementary instructions, only those that compute a word are rewritten. -/
theorem Elementary.reduces (h : Elementary i) (hnew : Rewrite .riscv32 next i used new) :
    ∃ word dest lhs rhs, word? i = some word ∧ i.operands = [dest, lhs, rhs] ∧
      IsDestination dest ∧ IsValue lhs ∧ IsValue rhs ∧ Reduces next word dest lhs rhs used new := by
  cases h with
  | constant hop hoperands hdest himm hconstant => exact absurd hnew (not_rewrite_constant hop)
  | compute hword hoperands hdest hlhs hrhs =>
    exact ⟨_, _, _, _, hword, hoperands, hdest, hlhs, hrhs,
      reduces_of_rewrite hnew hword hoperands hdest.size hlhs.size⟩

theorem Elementary.rewrite (hnew : Rewrite .riscv32 next i used new) (h : Elementary i) :
    ∀ j ∈ new, Elementary j := by
  obtain ⟨word, dest, lhs, rhs, -, -, hdest, hlhs, hrhs, hreduces⟩ := h.reduces hnew
  have htemp : ∀ {ty : LowType}, ty.bits ≤ 32 → IsDestination (.virtualReg next ty) :=
    fun h => ⟨rfl, h⟩
  cases hreduces with
  | loadFirst hconstant hword hj =>
    rw [List.forall_mem_cons, List.forall_mem_singleton]
    exact ⟨.constant rfl rfl (htemp hlhs.size) hlhs hconstant,
      .compute hword hj hdest (isValue_register (htemp hlhs.size)) hrhs⟩
  | loadSecond hconstant hword hj =>
    rw [List.forall_mem_cons, List.forall_mem_singleton]
    exact ⟨.constant rfl rfl (htemp hrhs.size) hrhs hconstant,
      .compute hword hj hdest hlhs (isValue_register (htemp hrhs.size))⟩
  | swap hword hj hsame =>
    rw [List.forall_mem_singleton]
    exact .compute hword hj hdest hrhs hlhs
  | withOne hty hfirst hj hsecond hj' hsame =>
    rw [List.forall_mem_cons, List.forall_mem_singleton]
    exact ⟨.compute hfirst hj (htemp hty) hlhs hrhs,
      .compute hsecond hj' hdest (isValue_register (htemp hty)) (isValue_one hty)⟩
  | withZero hty hfirst hj hsecond hj' hsame =>
    rw [List.forall_mem_cons, List.forall_mem_singleton]
    exact ⟨.compute hfirst hj (htemp hty) hlhs hrhs,
      .compute hsecond hj' hdest (isValue_register ⟨rfl, hty⟩) (isValue_register (htemp hty))⟩

/-! ## What code becomes -/

/-- What legalization makes of code, from left to right, and the next new id before and after. -/
inductive Becomes : Nat → List Instruction → Nat → List Instruction → Prop
  | nil (next : Nat) : Becomes next [] next []
  /-- A legal instruction stays. -/
  | keep {next next' : Nat} {i : Instruction} {is js : List Instruction}
      (hlegal : ∀ f b k, f.instruction? b k = some i → isLegal f b k)
      (h : Becomes next is next' js) : Becomes next (i :: is) next' (i :: js)
  /-- What an instruction is expanded to is in its place. -/
  | expand {next used next' : Nat} {i : Instruction} {new is js : List Instruction}
      (hnew : Rewrite .riscv32 next i used new) (h : Becomes (next + used) (new ++ is) next' js) :
      Becomes next (i :: is) next' js

section Becomes

variable {next' : Nat} {js : List Instruction}

theorem Becomes.length_le (h : Becomes next is next' js) : is.length ≤ js.length := by
  induction h with
  | nil => exact Nat.le_refl 0
  | keep hlegal h ih => exact Nat.succ_le_succ ih
  | expand hnew h ih =>
    have hlength := hnew.weight_le.2
    rw [List.length_append] at ih
    rw [List.length_cons]
    omega

theorem Becomes.next_le (h : Becomes next is next' js) : next ≤ next' := by
  induction h with
  | nil => exact Nat.le_refl _
  | keep hlegal h ih => exact ih
  | expand hnew h ih => exact Nat.le_trans (Nat.le_add_right _ _) ih

theorem Becomes.next_le_weight (h : Becomes next is next' js) :
    next' + is.length ≤ next + weight is := by
  induction h with
  | nil => exact Nat.le_refl _
  | keep hlegal h ih =>
    rw [weight_cons, List.length_cons]
    omega
  | expand hnew h ih =>
    have hweight := hnew.weight_le
    rw [weight_append, List.length_append] at ih
    rw [weight_cons, List.length_cons]
    omega

theorem Becomes.elementary (h : Becomes next is next' js) (his : ∀ i ∈ is, Elementary i) :
    ∀ j ∈ js, Elementary j ∧ ∀ f b k, f.instruction? b k = some j → isLegal f b k := by
  induction h with
  | nil => exact List.forall_mem_nil _
  | keep hlegal h ih =>
    rw [List.forall_mem_cons] at his ⊢
    exact ⟨⟨his.1, hlegal⟩, ih his.2⟩
  | expand hnew h ih =>
    rw [List.forall_mem_cons] at his
    exact ih (List.forall_mem_append.mpr ⟨his.1.rewrite hnew, his.2⟩)

theorem Becomes.within (h : Becomes next is next' js) {keep : RegId → Prop}
    (his : ∀ i ∈ is, i.Within keep) (hkeep : ∀ r, next ≤ r → r < next' → keep r) :
    ∀ j ∈ js, j.Within keep := by
  induction h with
  | nil => exact List.forall_mem_nil _
  | keep hlegal h ih =>
    rw [List.forall_mem_cons] at his ⊢
    exact ⟨his.1, ih his.2 hkeep⟩
  | expand hnew h ih =>
    rw [List.forall_mem_cons] at his
    have hle := h.next_le
    refine ih (List.forall_mem_append.mpr ⟨fun j hj o ho r hr => ?_, his.2⟩)
      fun r hr => hkeep r (by omega)
    rcases hnew.mentioned hj ho hr with ⟨o', ho', hr'⟩ | ⟨n, hn, rfl⟩
    · exact his.1 o' ho' r hr'
    · exact hkeep _ (by omega) (by omega)

end Becomes

theorem legalizeFrom_expand (hi : f.instruction? b k = some i) (hlegal : isLegal f b k = false)
    (hexpandable : isExpandable i) (hg : expand f b k = .ok g) (hk : k < g.blockLength b)
    (budget : Nat) : Function.legalizeFrom riscv32 b (budget + 1) k f =
      Function.legalizeFrom riscv32 b (budget + 1) k g := by
  have hsettle : f.settle riscv32 b k Function.maxExpansions =
      g.settle riscv32 b k Function.maxExpansions := by
    have hstep : f.settle riscv32 b k (31 + 1) = g.settle riscv32 b k 31 := by
      rw [Function.settle, hi]
      show (if isLegal f b k then _ else if isExpandable i then expand f b k >>= _ else _) = _
      rw [hlegal, if_neg Bool.false_ne_true, if_pos hexpandable, hg]
      rfl
    exact hstep.trans (Function.settle_eq_of_rank (a := .riscv32) (g.rank_le riscv32 b k)
      (by decide) (by decide))
  rw [Function.legalizeFrom, Function.legalizeFrom, if_pos (lt_blockLength hi), if_pos hk,
    hsettle]

theorem legalizeFrom_keep (hi : f.instruction? b k = some i) (hlegal : isLegal f b k)
    (budget : Nat) : Function.legalizeFrom riscv32 b (budget + 1) k f =
      Function.legalizeFrom riscv32 b budget (k + 1) f := by
  have hsettle : f.settle riscv32 b k Function.maxExpansions = .ok f := by
    rw [Function.settle]
    exact if_pos hlegal
  rw [Function.legalizeFrom, if_pos (lt_blockLength hi), hsettle]
  rfl

/-- **Elementary code becomes legal** where it stands, when legalization comes to it. -/
theorem exists_becomes {n : Nat} (hn : 5 * weight is + f.rank riscv32 b k ≤ n)
    (hcode : f.HasAt b k is) (his : ∀ i ∈ is, Elementary i)
    (hroom : f.nextId + weight is < 2 ^ 32 + is.length) :
    ∃ g js, Becomes f.nextId is g.nextId js ∧ f.LegalizesTo riscv32 b k is js g := by
  induction n using Nat.strong_induction_on generalizing f k is with
  | _ n ih =>
  cases is with
  | nil => exact ⟨f, [], .nil _, hcode.refl, fun budget => by simp⟩
  | cons i is =>
  have hi := hcode.instruction?
  have helementary := his i List.mem_cons_self
  rw [weight_cons] at hn
  rw [weight_cons, List.length_cons] at hroom
  cases hlegal : isLegal f b k with
  | true =>
    have hrank := f.rank_le riscv32 b (k + 1)
    obtain ⟨g, js, hbecomes, hrest⟩ := ih (5 * weight is + f.rank riscv32 b (k + 1))
      (by omega) (Nat.le_refl _) hcode.tail (fun j hj => his j (List.mem_cons_of_mem i hj))
      (by omega)
    refine ⟨g, i :: js, .keep (fun f' c m h => ?_) hbecomes, hrest.replaces.cons hi,
      fun budget => ?_⟩
    · rw [isLegal_congr (h.trans hi.symm), hlegal]
    · rw [List.length_cons, Nat.add_right_comm, legalizeFrom_keep hi hlegal, hrest.walk,
        Nat.add_assoc, Nat.add_comm 1]
  | false =>
    have hlength := length_le_weight is
    obtain ⟨hexpandable, g₁, hg₁⟩ := helementary.exists_expand hi hlegal (by omega)
    obtain ⟨used, new, hnew, hreplaces₁, hnext⟩ := expand_cases hi hlegal hexpandable hg₁
    obtain ⟨hweight, hused⟩ := hnew.weight_le
    have hrank : g₁.rank riscv32 b k < f.rank riscv32 b k :=
      rank_expand (a := .riscv32) hi hlegal hexpandable hg₁
    have hcode₁ : g₁.HasAt b k (new ++ is) := Function.HasAt.replaces hcode hreplaces₁
    obtain ⟨g, js, hbecomes, hrest⟩ := ih
      (5 * weight (new ++ is) + g₁.rank riscv32 b k) (by rw [weight_append]; omega)
      (Nat.le_refl _) hcode₁
      (List.forall_mem_append.mpr
        ⟨helementary.rewrite hnew, fun j hj => his j (List.mem_cons_of_mem i hj)⟩)
      (by rw [weight_append, List.length_append]; omega)
    have hjs := hbecomes.length_le
    rw [List.length_append] at hjs
    refine ⟨g, js, .expand hnew (hnext ▸ hbecomes),
      (hreplaces₁.append hcode).trans hrest.replaces, fun budget => ?_⟩
    obtain ⟨m, hm⟩ : ∃ m, js.length + budget = m + 1 := ⟨js.length + budget - 1, by omega⟩
    rw [← hrest.walk, hm]
    obtain ⟨j, rest, hnew₁⟩ := List.exists_cons_of_length_pos (Nat.zero_lt_of_lt hused)
    rw [hnew₁] at hcode₁
    exact legalizeFrom_expand hi hlegal hexpandable hg₁
      (lt_blockLength hcode₁.instruction?) m

end Target.Riscv

end Retarget
