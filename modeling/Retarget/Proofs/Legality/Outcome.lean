import Retarget.Proofs.Legality.FixedPoint
import Retarget.Proofs.Legality.Progress
import Retarget.Proofs.Lowering.Produced
import Retarget.Proofs.Shape.Pipeline

/-!
# When legalization fails

The expansion of a shaped instruction fails for two reasons only: an id past the last one is asked
for, or a constant is masked to 63 bits (`Arch.expand_error`).  Expansions bring in neither such
conversions nor, on RV32, floating point and wide values, and what cannot be expanded stays.  So the
code that lowering produces decides how its legalization ends (`legalize_outcome`).
-/

namespace Retarget.Machine

/-- A conversion of a constant whose mask has 63 bits. -/
inductive Instruction.MasksAt63 (i : Instruction) : Prop
  | zext {dest source : Operand} (hop : i.generic? = some .zext)
      (hoperands : i.operands = [dest, source]) (himm : source.isImmediate)
      (hsize : source.size = 63)
  | trunc {dest source : Operand} (hop : i.generic? = some .trunc)
      (hoperands : i.operands = [dest, source]) (himm : source.isImmediate)
      (hsize : dest.size = 63)

namespace Instruction

variable {i : Instruction}

theorem MasksAt63.isConstantConversion (h : i.MasksAt63) : i.isConstantConversion := by
  cases h with
  | zext hop hoperands himm hsize | trunc hop hoperands himm hsize =>
    simp [Instruction.isConstantConversion, hop, operand?, hoperands, himm,
      GenericOp.isWidthConversion]

theorem MasksAt63.generic? (h : i.MasksAt63) :
    i.generic? = some .zext ∨ i.generic? = some .trunc := by
  cases h with
  | zext hop hoperands himm hsize => exact .inl hop
  | trunc hop hoperands himm hsize => exact .inr hop

end Instruction

namespace Function

variable {f : Function}

theorem fresh_eq_error {e : Failure} (h : f.fresh = .error e) :
    e = .outOfRange ∧ 2 ^ 32 ≤ f.nextId + 1 := by
  rcases bind_eq_error.mp h with h | ⟨next, -, h⟩
  · rw [Word.fit] at h
    split at h
    · cases h
    · next hfit =>
      cases h
      exact ⟨rfl, Nat.le_of_not_lt hfit⟩
  · cases h

end Function

end Retarget.Machine

namespace Retarget.Target

open Machine

variable {a : Arch} {f g : Function} {b k : Nat} {i : Instruction} {e : Failure}

/-! ## Expansions that fail -/

/-- Why an expansion fails while the ids below `next` are in use: the code has another form than it
expects, it asks for an id past the last one, or its mask has no representation. -/
def Fails (next : Nat) (i : Instruction) (e : Failure) : Prop :=
  e.isInternal ∨ e = .outOfRange ∧ (2 ^ 32 ≤ next + i.growth ∨ i.MasksAt63)

theorem Fails.internal {next : Nat} {detail : String} : Fails next i (.internal detail) := .inl rfl

theorem Fails.of_fresh {f' : Function} {next : Nat} (h : f'.fresh = .error e)
    (hnext : f'.nextId + 1 ≤ next + i.growth) : Fails next i e := by
  obtain ⟨rfl, hid⟩ := Function.fresh_eq_error h
  exact .inr ⟨rfl, .inl (Nat.le_trans hid hnext)⟩

section Shared

variable (hi : f.instruction? b k = some i)
include hi

theorem materialize_eq_error {op : GenericOp} {n : Nat} (hop : i.generic? = some op)
    (huse : op = .store ∨ op.isThreeAddress ∨ op = .cmp) (h : materialize f b k n = .error e) :
    Fails f.nextId i e := by
  rw [materialize, Function.instructionAt_eq hi, ok_bind] at h
  rcases bind_eq_error.mp h with h | ⟨imm, himm, h⟩
  · rw [orFail_eq_error h]
    exact .internal
  · rw [orFail_eq_ok, Option.filter_eq_some_iff] at himm
    rcases bind_eq_error.mp h with h | ⟨r, -, h⟩
    · have hpos : 0 < constants i.operands :=
        List.countP_pos_iff.mpr ⟨imm, List.mem_of_getElem? himm.1, himm.2⟩
      have hgrowth := growth_lt_of_constants huse i.relation hpos
      rw [← Instruction.growth_eq hop] at hgrowth
      exact .of_fresh h (by omega)
    · cases h

theorem expandStoreImmediate_eq_error (hop : i.generic? = some .store)
    (h : expandStoreImmediate f b k = .error e) : Fails f.nextId i e := by
  rw [expandStoreImmediate, Function.instructionAt_eq hi, ok_bind] at h
  rcases bind_eq_error.mp h with h | ⟨n, -, h⟩
  · rw [orFail_eq_error h]
    exact .internal
  · exact materialize_eq_error hi hop (.inl rfl) h

theorem expandRemainder_eq_error {op : GenericOp} (hop : i.generic? = some op)
    (hremainder : op = .mod ∨ op = .modu) (h : expandRemainder f b k = .error e) :
    Fails f.nextId i e := by
  have hgrowth : 2 ≤ i.growth := by
    rw [Instruction.growth_eq hop]
    rcases hremainder with rfl | rfl <;> exact Nat.le_add_right 2 _
  rw [expandRemainder, Function.instructionAt_eq hi, ok_bind, hop] at h
  rcases hremainder with rfl | rfl
  all_goals
    rcases bind_eq_error.mp h with h | ⟨division, -, h⟩
    · cases h
    · split at h
      · rcases bind_eq_error.mp h with h | ⟨q, hq, h⟩
        · exact .of_fresh h (by omega)
        · cases Function.fresh_eq_ok hq
          rcases bind_eq_error.mp h with h | ⟨p, -, h⟩
          · exact .of_fresh h (by dsimp only; omega)
          · cases h
      · cases h
        exact .internal

omit hi in
theorem maskTo_eq_error {bits : Nat} {value : Int} (h : maskTo bits value = .error e) :
    e = .outOfRange ∧ bits = 63 := by
  rw [maskTo] at h
  split at h
  · cases h
  · split at h
    · next hbits =>
      cases h
      exact ⟨rfl, hbits⟩
    · cases h

theorem expandConstantConversion_eq_error (h : expandConstantConversion f b k = .error e) :
    Fails f.nextId i e := by
  rw [expandConstantConversion, Function.instructionAt_eq hi, ok_bind] at h
  split at h
  · next op dest source hop hoperands =>
    rcases bind_eq_error.mp h with h | ⟨value, hvalue, h⟩
    · rw [orFail_eq_error h]
      exact .internal
    · have himm : source.isImmediate :=
        Operand.isImmediate_iff.mpr ⟨value, orFail_eq_ok.mp hvalue⟩
      rcases bind_eq_error.mp h with h | ⟨folded, -, h⟩
      · cases op with
        | zext =>
          obtain ⟨rfl, hsize⟩ := maskTo_eq_error h
          exact .inr ⟨rfl, .inr (.zext hop hoperands himm hsize)⟩
        | trunc =>
          obtain ⟨rfl, hsize⟩ := maskTo_eq_error h
          exact .inr ⟨rfl, .inr (.trunc hop hoperands himm hsize)⟩
        | _ => cases h
      · cases h
  · cases h
    exact .internal

theorem expandConstants_eq_error {rest : Result Function}
    (hrest : i.hasImmediateFirstSource = false → i.isConstantConversion = false →
      rest = .error e → Fails f.nextId i e)
    (h : (if i.hasImmediateFirstSource then materialize f b k 1
      else if i.isConstantConversion then expandConstantConversion f b k else rest) = .error e) :
    Fails f.nextId i e := by
  split at h
  · next hfirst =>
    rw [Instruction.hasImmediateFirstSource, Bool.and_eq_true, Option.any_eq_true] at hfirst
    obtain ⟨⟨op, hop, hkind⟩, -⟩ := hfirst
    exact materialize_eq_error hi hop (.inr (by simpa using hkind)) h
  · next hfirst =>
    split at h
    · exact expandConstantConversion_eq_error hi h
    · next hconversion => exact hrest (by simpa using hfirst) (by simpa using hconversion) h

end Shared

namespace AArch64

theorem expandGlobalAddress_eq_error (h : expandGlobalAddress f b k i = .error e) :
    Fails f.nextId i e := by
  rw [expandGlobalAddress] at h
  split at h
  · split at h
    · cases h
    · cases h
      exact .internal
  · cases h
    exact .internal

theorem expandAddSub_eq_error {op flipped : GenericOp} (hi : f.instruction? b k = some i)
    (hop : i.generic? = some op) (haddSub : op = .add ∨ op = .sub)
    (h : expandAddSub f b k i flipped = .error e) : Fails f.nextId i e := by
  rw [expandAddSub] at h
  split at h
  · cases h
  · refine materialize_eq_error hi hop (.inr (.inl ?_)) h
    rcases haddSub with rfl | rfl <;> rfl

theorem foldZextIntoLoad_eq_error (hfoldable : isFoldableZext f b k)
    (h : foldZextIntoLoad f b k i = .error e) :
    Fails f.nextId i e := by
  obtain ⟨zext, load, source, r, hk, hzext, hload, -⟩ := isFoldableZext_iff.mp hfoldable
  rw [foldZextIntoLoad, if_neg (by omega), hload] at h
  dsimp only at h
  split at h
  · cases h
  · cases h
    exact .internal

theorem expand_error (hi : f.instruction? b k = some i) (hlegal : isLegal f b k = false)
    (h : expand f b k = .error e) : Fails f.nextId i e := by
  rw [expand, hi] at h
  refine expandConstants_eq_error hi (fun hfirst hconversion h => ?_) h
  cases hop : i.generic? with
  | none => simp [isLegal, hi, hop] at hlegal
  | some op =>
    rw [hop] at h
    simp only [isLegal, hi, hop, hfirst, hconversion, Bool.or_self, Bool.false_eq_true,
      if_false] at hlegal
    cases op with
    | mod => exact expandRemainder_eq_error hi hop (.inl rfl) h
    | modu => exact expandRemainder_eq_error hi hop (.inr rfl) h
    | store => exact expandStoreImmediate_eq_error hi hop h
    | globalAddress => exact expandGlobalAddress_eq_error h
    | zext => exact foldZextIntoLoad_eq_error (by simpa using hlegal) h
    | add => exact expandAddSub_eq_error hi hop (.inl rfl) h
    | sub => exact expandAddSub_eq_error hi hop (.inr rfl) h
    | mul | div | divu | and | or | xor | lsl | lsr =>
      exact materialize_eq_error hi hop (.inr (.inl rfl)) h
    | cmp => exact materialize_eq_error hi hop (.inr (.inr rfl)) h
    | _ => simp at hlegal

end AArch64

namespace Riscv

theorem expandCompare_eq_error (hi : f.instruction? b k = some i) (hop : i.generic? = some .cmp)
    (h : expandCompare f b k i = .error e) : Fails f.nextId i e := by
  rw [expandCompare] at h
  split at h
  · next relation dest lhs rhs hrelation hoperands =>
    have hfresh : ∀ {c : RegId × Function → Result Function}, (∀ r, ∃ g, c r = .ok g) →
        relation = .ge ∨ relation = .eq ∨ relation = .ne → (f.fresh >>= c) = .error e →
        Fails f.nextId i e := by
      intro c hc hwide h
      rcases bind_eq_error.mp h with h | ⟨r, -, h⟩
      · refine .of_fresh h ?_
        rw [Instruction.growth_eq hop, hrelation]
        rcases hwide with rfl | rfl | rfl <;> simp only [GenericOp.growth] <;> omega
      · obtain ⟨g, hg⟩ := hc r
        cases hg.symm.trans h
    split at h
    · cases h
    · cases h
    · exact hfresh (fun r => ⟨_, rfl⟩) (by simp) h
    · exact hfresh (fun r => ⟨_, rfl⟩) (by simp) h
    · exact hfresh (fun r => ⟨_, rfl⟩) (by simp) h
    · exact materialize_eq_error hi hop (.inr (.inr rfl)) h
    · exact materialize_eq_error hi hop (.inr (.inr rfl)) h
  · cases h
    exact .internal

theorem expand_error (hi : f.instruction? b k = some i) (hlegal : isLegal f b k = false)
    (hexpandable : isExpandable i) (h : expand f b k = .error e) : Fails f.nextId i e := by
  rw [expand, hi] at h
  refine expandConstants_eq_error hi (fun hfirst hconversion h => ?_) h
  obtain ⟨op, hop, hfloat, hwide⟩ := isExpandable_cases hexpandable
  rw [hop] at h
  simp only [isLegal, hi, hop, hfloat, hwide, hfirst, hconversion, Bool.or_self,
    Bool.false_eq_true, if_false] at hlegal
  cases op with
  | store => exact expandStoreImmediate_eq_error hi hop h
  | cmp => exact expandCompare_eq_error hi hop h
  | mul | div | divu | mod | modu | sub | add | and | or | xor | lsl | lsr =>
    exact materialize_eq_error hi hop (.inr (.inl rfl)) h
  | _ => simp at hlegal

end Riscv

end Retarget.Target

namespace Retarget

open Machine Target

variable {a : Arch} {f g : Function} {b k : Nat} {i : Instruction} {e : Failure}
  {slots : List Slot}

theorem growth_le_idDemand (hi : i ∈ f.instructions) : f.nextId + i.growth ≤ idDemand f := by
  obtain ⟨before, after, hf⟩ := List.append_of_mem hi
  simp only [idDemand, hf, List.map_append, List.map_cons, List.sum_append, List.sum_cons]
  omega

/-- **The expansion of a shaped instruction** fails only for want of an id or of a mask. -/
theorem Arch.expand_error (hf : f.ShapedOver a.target slots) (hi : f.instruction? b k = some i)
    (hlegal : a.target.isLegal f b k = false) (hexpandable : a.target.isExpandable i)
    (h : a.target.expand f b k = .error e) :
    e = .outOfRange ∧ (2 ^ 32 ≤ idDemand f ∨ i.MasksAt63) := by
  have hfails : Fails f.nextId i e := by
    cases a with
    | aarch64 => exact AArch64.expand_error hi hlegal h
    | riscv32 => exact Riscv.expand_error hi hlegal hexpandable h
  rcases hfails with hinternal | ⟨rfl, hreason⟩
  · have hyields := a.sound.expands _ f b k i hf hi hlegal hexpandable
    rw [h] at hyields
    cases hyields with
    | error hexternal => simp [hinternal] at hexternal
  · have hgrowth := growth_le_idDemand (Function.mem_of_instruction? hi)
    exact ⟨rfl, hreason.imp_left fun hid => Nat.le_trans hid hgrowth⟩

namespace Machine

/-! ## Limits -/

theorem Instruction.Shaped.growth_le {t : Target} (h : i.Shaped t slots) :
    i.growth + 1 ≤ 8 + i.operands.length := by
  have hconstants : constants i.operands ≤ i.operands.length := List.countP_le_length
  rw [Instruction.growth]
  split
  · next op hop =>
    have hlayout := h.layout_mem (Instruction.generic?_eq_some hop)
    have hlength : i.layout.length = i.operands.length := by simp [Instruction.layout]
    cases op with
    | mod | modu | globalAddress =>
      simp only [GenericOp.layouts, List.mem_singleton] at hlayout
      simp only [hlayout, List.length_cons, List.length_nil] at hlength
      simp only [GenericOp.growth]
      omega
    | cmp =>
      cases i.relation with
      | none => simp only [GenericOp.growth]; omega
      | some r => cases r <;> simp only [GenericOp.growth] <;> omega
    | _ =>
      simp only [GenericOp.growth]
      omega
  · omega

namespace Function

theorem weight_le_expansionBudget {t : Target} (hf : f.ShapedOver t slots) (b : Nat) :
    weight (f.rest b 0) ≤ f.expansionBudget b := by
  rw [rest, expansionBudget]
  cases hblock : f.blocks[b]? with
  | none => exact Nat.le_refl 0
  | some block =>
    have hall : ∀ i ∈ block.instructions, i.Shaped t slots := fun i hi =>
      hf.all i (mem_instructions.mpr ⟨block, List.mem_of_getElem? hblock, hi⟩)
    dsimp only
    rw [List.drop_zero]
    generalize block.instructions = is at hall ⊢
    induction is with
    | nil => exact Nat.le_refl 0
    | cons i is ih =>
      have hi := (hall i (by simp)).growth_le
      have his := ih fun j hj => hall j (by simp [hj])
      rw [weight_cons, List.foldr_cons]
      omega

/-- No limit from four expansions on plays a part, and neither does the budget of a block. -/
theorem legalizeWithin_eq (hf : f.ShapedOver a.target slots) {rounds : Nat} (hrounds : 4 ≤ rounds)
    (extra : Nat) : f.legalizeWithin a.target rounds extra = f.legalize a.target := by
  rw [legalizeWithin, legalize]
  generalize List.range f.blocks.length = bs
  induction bs generalizing f with
  | nil => rfl
  | cons b bs ih =>
    have hweight := weight_le_expansionBudget hf b
    have heq : legalizeFromWithin a.target rounds b (f.expansionBudget b + extra) 0 f =
        legalizeFrom a.target b (f.expansionBudget b) 0 f := by
      rw [legalizeFrom_eq]
      exact legalizeFromWithin_eq hrounds (by decide) (Nat.le_add_right_of_le hweight) hweight
    rw [List.foldlM_cons, List.foldlM_cons, heq]
    cases hg : legalizeFrom a.target b (f.expansionBudget b) 0 f with
    | error e => rfl
    | ok g => exact ih ((yields_legalizeFrom a.sound.expands b 0 _ hf).of_eq_ok hg)

end Function

end Machine

/-! ## What a run keeps -/

/-- `g` comes from `f` by expansions, and what is new in it is `Good`. -/
structure Arch.Follows (a : Arch) (Good : Instruction → Prop) (f g : Function) : Prop where
  name : g.name = f.name
  shaped : g.ShapedOver a.target f.slots
  idDemand_le : idDemand g ≤ idDemand f
  mem_or : ∀ i ∈ g.instructions, i ∈ f.instructions ∨ Good i

theorem Arch.Follows.refl {Good : Instruction → Prop} (hf : f.All (·.Shaped a.target f.slots)) :
    a.Follows Good f f :=
  ⟨rfl, ⟨rfl, hf⟩, Nat.le_refl _, fun _ => .inl⟩

/-- What expansions put in place of good instructions has to be good. -/
theorem Arch.keptBy_follows {Good : Instruction → Prop}
    (hrewrite : ∀ {next used i new}, i ∈ f.instructions ∨ Good i → a.target.isExpandable i →
      Rewrite a next i used new → ∀ j ∈ new, Good j)
    (hfold : a = .aarch64 → ∀ load dest loaded rest, Good (extendingLoad load dest loaded rest)) :
    Function.KeptBy a.target fun _ _ => a.Follows Good f where
  expand := by
    intro f' g b k i hf' hi hlegal hexpandable h
    have hshaped := (a.sound.expands _ f' b k i hf'.shaped hi hlegal hexpandable).of_eq_ok h
    have hdemand := Nat.le_trans (idDemand_expand hi hlegal hexpandable h) hf'.idDemand_le
    have hfound := hf'.mem_or i (Function.mem_of_instruction? hi)
    rcases Arch.expand_cases hi hlegal hexpandable h with ⟨used, new, hnew, hreplaces, -⟩ |
      ⟨ha, load, dest, source, loaded, extra, rest, r, hfolds⟩
    · refine ⟨hreplaces.name.trans hf'.name, hshaped, hdemand, fun j hj => ?_⟩
      exact (hreplaces.mem_instructions hj).elim (hf'.mem_or j)
        fun hj => .inr (hrewrite hfound hexpandable hnew j hj)
    · have hreplaces := hfolds.replaces.2
      refine ⟨hreplaces.name.trans hf'.name, hshaped, hdemand, fun j hj => ?_⟩
      rcases hreplaces.mem_instructions hj with hj | hj
      · exact hf'.mem_or j hj
      · cases List.mem_singleton.mp hj
        exact .inr (hfold ha load dest loaded rest)
  next := fun hf _ => hf
  nextBlock := fun hf _ => hf

theorem Arch.mem_expand (hi : f.instruction? b k = some i)
    (hlegal : a.target.isLegal f b k = false) (hexpandable : a.target.isExpandable i)
    (h : a.target.expand f b k = .ok g) {j : Instruction} (hj : j ∈ f.instructions) (hne : j ≠ i)
    (hload : a = .aarch64 → j.opcode ≠ .generic .load) : j ∈ g.instructions := by
  rcases Arch.expand_cases hi hlegal hexpandable h with ⟨used, new, -, hreplaces, -⟩ |
    ⟨ha, load, dest, source, loaded, extra, rest, r, hfolds⟩
  · exact hreplaces.mem_of_mem hj (by simpa using hne)
  · refine hfolds.replaces.2.mem_of_mem hj ?_
    simp only [List.mem_cons, List.not_mem_nil, or_false, not_or]
    exact ⟨fun heq => hload ha (heq ▸ hfolds.isLoad), hne⟩

/-! ## AArch64 -/

namespace Target

theorem Rewrite.not_masksAt63 {next used : Nat} {new : List Instruction}
    (h : Rewrite a next i used new) : ¬i.MasksAt63 := by
  intro hmask
  have hops := hmask.generic?
  cases h with
  | materialize hop huse hn himm =>
    rw [hop] at hops
    rcases huse with rfl | ⟨hthree | rfl, -⟩
    · simp at hops
    · rcases hops with hops | hops <;> cases hops <;> cases hthree
    · simp at hops
  | convert hop hconversion hoperands hvalue hfolded =>
    cases hmask with
    | zext hop' hoperands' himm hsize | trunc hop' hoperands' himm hsize =>
      cases hop.symm.trans hop'
      cases hoperands.symm.trans hoperands'
      rw [foldConversion, hsize] at hfolded
      cases hfolded
  | remainder ha hop hdivision hoperands hlhs =>
    rw [hop] at hops
    rcases hdivision with ⟨rfl, -⟩ | ⟨rfl, -⟩ <;> simp at hops
  | flip ha hop hflipped hfirst hn hvalue hnegated hfits =>
    rw [hop] at hops
    rcases hflipped with ⟨rfl, -⟩ | ⟨rfl, -⟩ <;> simp at hops
  | _ => simp_all

theorem Rewrite.not_masksAt63_of_mem {next used : Nat} {new : List Instruction} {j : Instruction}
    (h : Rewrite a next i used new) (hj : j ∈ new) : ¬j.MasksAt63 := by
  intro hmask
  rcases hmask.generic? with hop | hop <;>
    simpa [GenericOp.isThreeAddress] using h.generic?_cases hj hop

theorem AArch64.isExpandable_of_isLegal (hi : f.instruction? b k = some i)
    (hlegal : isLegal f b k = false) : isExpandable i := by
  rw [isExpandable]
  cases hfirst : i.hasImmediateFirstSource || i.isConstantConversion with
  | true => rfl
  | false =>
    rw [isLegal, hi] at hlegal
    cases hop : i.generic? with
    | none => simp [hop] at hlegal
    | some op => cases op <;> simp [hop, hfirst] at hlegal ⊢

end Target

namespace Machine.Function

/-- On AArch64 only a mask of 63 bits stops legalization, as long as there are ids. -/
theorem legalize_aarch64_error (hf : f.All (·.Shaped .aarch64 f.slots))
    (h : f.legalize .aarch64 = .error e) :
    e = .outOfRange ∧ (2 ^ 32 ≤ idDemand f ∨ ∃ i ∈ f.instructions, i.MasksAt63) := by
  have hkept : KeptBy Arch.aarch64.target
      fun _ _ => Arch.aarch64.Follows (fun i => ¬i.MasksAt63) f :=
    Arch.keptBy_follows (fun _ _ hrewrite _ hj => hrewrite.not_masksAt63_of_mem hj)
      fun _ _ _ _ _ hmask => by simpa [extendingLoad] using hmask.generic?
  obtain ⟨f', b, k, i, hf', hstops⟩ := legalize_error (a := .aarch64) hkept
    (fun b f' hf' => weight_le_expansionBudget hf'.shaped b) (.refl hf) h
  have hexpandable := AArch64.isExpandable_of_isLegal hstops.found hstops.illegal
  rcases hstops.reason with ⟨hnot, -⟩ | ⟨-, herror⟩
  · exact absurd hexpandable (Bool.eq_false_iff.mp hnot)
  · obtain ⟨rfl, hreason⟩ := Arch.expand_error (a := .aarch64) hf'.shaped hstops.found
      hstops.illegal hexpandable herror
    refine ⟨rfl, hreason.imp (fun hid => Nat.le_trans hid hf'.idDemand_le) fun hmask =>
      ⟨i, ?_, hmask⟩⟩
    exact (hf'.mem_or i (mem_of_instruction? hstops.found)).resolve_right (not_not_intro hmask)

theorem tidy_of_shaped {t : Target} (hf : f.All (·.Shaped t slots)) : f.Tidy := by
  intro i hi hop o ho
  have hlayout : i.layout = [false, false] := by
    rcases hop with hop | hop <;>
      simpa [GenericOp.layouts] using (hf i hi).layout_mem (Instruction.isGeneric_iff.mp hop)
  obtain ⟨o₁, o₂, hoperands, -⟩ := Instruction.operands_of_layout₂ hlayout
  simp [hoperands] at ho

theorem legalize_aarch64_of_masksAt63 (hf : f.All (·.Shaped .aarch64 f.slots))
    (hi : i ∈ f.instructions) (hmask : i.MasksAt63) : f.legalize .aarch64 = .error .outOfRange := by
  cases h : f.legalize .aarch64 with
  | error e => rw [(legalize_aarch64_error hf h).1]
  | ok g =>
    -- the conversion is still there at the end, where everything is legal
    have hkept : KeptBy Arch.aarch64.target fun _ _ g => i ∈ g.instructions := by
      refine ⟨fun {f' g b k j} hf' hj hlegal hexpandable hexpand => ?_, fun hf' _ => hf',
        fun hf' _ => hf'⟩
      refine Arch.mem_expand hj hlegal hexpandable hexpand hf' ?_ fun _ hload => ?_
      · rintro rfl
        rcases Arch.expand_cases hj hlegal hexpandable hexpand with ⟨_, _, hrewrite, -⟩ |
          ⟨-, load, dest, source, loaded, extra, rest, r, hfolds⟩
        · exact hrewrite.not_masksAt63 hmask
        · have hconversion := hmask.isConstantConversion
          simp [Instruction.isConstantConversion, Instruction.operand?, hfolds.zextOperands,
            Operand.isImmediate, hfolds.reads] at hconversion
      · rcases hmask.generic? with hop | hop <;>
          simp [Instruction.generic?, hload, Opcode.generic?] at hop
    obtain ⟨b, k, hget⟩ := exists_instruction?_of_mem (hkept.legalize hi h)
    have hlegal := isLegal_legalize (a := .aarch64) (fun _ => tidy_of_shaped hf) h b k
    have hlegal : AArch64.isLegal g b k := hlegal
    rcases hmask.generic? with hop | hop <;>
      simp [AArch64.isLegal, hget, hop, hmask.isConstantConversion] at hlegal

end Machine.Function

/-! ## RV32 -/

namespace Target.Riscv

/-- Floating point, or a value that no register of the target holds. -/
def Unsupported (i : Instruction) : Prop :=
  (∃ op, i.generic? = some op ∧ op.isFloat) ∨
    ∃ o ∈ i.operands, (o.isRegLike ∨ o.isImmediate) ∧ 32 < o.size

theorem isTooWide_iff :
    isTooWide i ↔ ∃ o ∈ i.operands, (o.isRegLike ∨ o.isImmediate) ∧ 32 < o.size := by
  simp [isTooWide]

/-- A generic instruction that the target can carry out, with operands as lowering has them. -/
def Supported (i : Instruction) : Prop :=
  ∃ op, i.generic? = some op ∧ op.isFloat = false ∧ op.Suits riscv32 i.operands ∧
    ∀ o ∈ i.operands, o.isRegLike ∨ o.isImmediate → o.size ≤ 32

theorem Supported.not_unsupported (h : Supported i) : ¬Unsupported i := by
  obtain ⟨op, hop, hfloat, -, hsize⟩ := h
  rintro (⟨op', hop', hfloat'⟩ | ⟨o, ho, hkind, hwide⟩)
  · cases hop.symm.trans hop'
    simp [hfloat] at hfloat'
  · have := hsize o ho hkind
    omega

theorem not_unsupported_of_isExpandable (h : isExpandable i) : ¬Unsupported i := by
  obtain ⟨op, hop, hfloat, hwide⟩ := isExpandable_cases h
  rintro (⟨op', hop', hfloat'⟩ | hwide')
  · cases hop.symm.trans hop'
    simp [hfloat] at hfloat'
  · simp [isTooWide_iff.mpr hwide'] at hwide

theorem supported_of_plain {next : Nat} (h : i.Plain riscv32 next) (hi : ¬Unsupported i) :
    Supported i := by
  obtain ⟨op, hcode, -, hsuits⟩ := h.form
  have hop : i.generic? = some op := by rw [Instruction.generic?, hcode]; rfl
  refine ⟨op, hop, Bool.eq_false_iff.mpr fun hfloat => hi (.inl ⟨op, hop, hfloat⟩), hsuits,
    fun o ho hkind => Nat.le_of_not_lt fun hwide => hi (.inr ⟨o, ho, hkind, hwide⟩)⟩

theorem supported_loadImmediate {dest imm : Operand} (hregister : dest.isRegLike)
    (hdest : dest.size ≤ 32) (himm : imm.size ≤ 32) : Supported (loadImmediate dest imm) := by
  refine ⟨.loadImm, rfl, rfl, ?_, fun o ho _ => ?_⟩
  · rintro o ⟨⟩
    exact hregister
  have ho : o ∈ [dest, imm] := ho
  simp only [List.mem_cons, List.not_mem_nil, or_false] at ho
  rcases ho with rfl | rfl <;> assumption

theorem supported_compare {r : Relation} {d x y : Operand} (hd : d.isRegLike)
    (hx : x.isRegLike ∨ x.isImmediate) (hy : y.isRegLike ∨ y.isImmediate)
    (hsize : d.size ≤ 32 ∧ x.size ≤ 32 ∧ y.size ≤ 32) : Supported (compare r d x y) := by
  refine ⟨.cmp, rfl, rfl, ⟨?_, ?_⟩, ?_⟩
  · rintro o ⟨⟩
    exact hd
  all_goals
    intro o ho
    have ho : o ∈ [d, x, y] := ho
    simp only [List.mem_cons, List.not_mem_nil, or_false] at ho
  · rcases ho with rfl | rfl | rfl
    · exact .inl hd
    · exact hx
    · exact hy
  · rcases ho with rfl | rfl | rfl
    · exact fun _ => hsize.1
    · exact fun _ => hsize.2.1
    · exact fun _ => hsize.2.2

theorem supported_exclusiveOr {d x y : Operand} (hd : d.isRegLike)
    (hsize : d.size ≤ 32 ∧ x.size ≤ 32 ∧ y.size ≤ 32) : Supported (exclusiveOr d x y) := by
  refine ⟨.xor, rfl, rfl, ?_, fun o ho _ => ?_⟩
  · rintro o ⟨⟩
    exact hd
  have ho : o ∈ [d, x, y] := ho
  simp only [List.mem_cons, List.not_mem_nil, or_false] at ho
  rcases ho with rfl | rfl | rfl
  · exact hsize.1
  · exact hsize.2.1
  · exact hsize.2.2

/-- What a compare keeps to, operand by operand. -/
theorem Supported.compare_operands {dest lhs rhs : Operand} (h : Supported i)
    (hop : i.generic? = some .cmp) (hoperands : i.operands = [dest, lhs, rhs]) :
    dest.isRegLike ∧ (lhs.isRegLike ∨ lhs.isImmediate) ∧ (rhs.isRegLike ∨ rhs.isImmediate) ∧
      dest.size ≤ 32 ∧ lhs.size ≤ 32 ∧ rhs.size ≤ 32 := by
  obtain ⟨op, hop', -, hsuits, hsize⟩ := h
  cases hop.symm.trans hop'
  rw [hoperands] at hsuits hsize
  obtain ⟨hdest, hall⟩ := hsuits
  have hdest : dest.isRegLike := hdest dest rfl
  have hlhs := hall lhs (by simp)
  have hrhs := hall rhs (by simp)
  exact ⟨hdest, hlhs, hrhs, hsize dest (by simp) (.inl hdest), hsize lhs (by simp) hlhs,
    hsize rhs (by simp) hrhs⟩

theorem supported_of_rewrite {next used : Nat} {new : List Instruction}
    (h : Rewrite .riscv32 next i used new) (hi : Supported i) : ∀ j ∈ new, Supported j := by
  cases h with
  | @materialize op n imm hop huse hn himm =>
    obtain ⟨op', hop', hfloat, hsuits, hsize⟩ := hi
    cases hop.symm.trans hop'
    have hwidth : imm.size ≤ 32 := hsize imm (List.mem_of_getElem? hn) (.inr himm)
    simp only [List.mem_cons, List.not_mem_nil, or_false, forall_eq_or_imp, forall_eq]
    refine ⟨supported_loadImmediate rfl hwidth hwidth, op, hop, hfloat, ?_, fun o ho hkind => ?_⟩
    · rcases huse with rfl | ⟨harithmetic, hpos⟩
      · trivial
      have hhead : (i.operands.set n (.virtualReg next imm.ty)).head? = i.operands.head? := by
        rw [List.head?_eq_getElem?, List.getElem?_set_ne (by omega), List.head?_eq_getElem?]
      rw [Instruction.operands_replaceOperand]
      rcases harithmetic with hthree | rfl
      · cases op <;> first | trivial | simpa only [GenericOp.Suits, hhead] using hsuits
      · exact ⟨by simpa only [hhead] using hsuits.1, forall_mem_set hsuits.2 n (.inl rfl)⟩
    · have hnew : (Operand.virtualReg next imm.ty).size ≤ 32 := hwidth
      exact forall_mem_set hsize n (fun _ => hnew) o ho hkind
  | @convert op dest source value folded hop hconversion hoperands hvalue hfolded =>
    obtain ⟨op', hop', hfloat, hsuits, hsize⟩ := hi
    cases hop.symm.trans hop'
    have hdest : dest.isRegLike := by
      rw [hoperands] at hsuits
      cases op <;> first | exact hsuits.1 dest rfl | cases hconversion
    have hwidth : dest.size ≤ 32 := hsize dest (by simp [hoperands]) (.inl hdest)
    rw [List.forall_mem_singleton]
    exact supported_loadImmediate hdest hwidth hwidth
  | swap ha hop hrelation hswap hoperands hlhs =>
    obtain ⟨hd, hx, hy, hwd, hwx, hwy⟩ := hi.compare_operands hop hoperands
    simpa using supported_compare hd hy hx ⟨hwd, hwy, hwx⟩
  | notLess ha hop hrelation hoperands hlhs =>
    obtain ⟨hd, hx, hy, hwd, hwx, hwy⟩ := hi.compare_operands hop hoperands
    simpa using ⟨supported_compare rfl hx hy ⟨hwd, hwx, hwy⟩,
      supported_exclusiveOr hd ⟨hwd, hwd, hwd⟩⟩
  | equal ha hop hrelation hoperands hlhs =>
    obtain ⟨hd, hx, hy, hwd, hwx, hwy⟩ := hi.compare_operands hop hoperands
    simpa using ⟨supported_exclusiveOr rfl ⟨hwx, hwx, hwy⟩,
      supported_compare hd (.inl rfl) (.inr rfl) ⟨hwd, hwx, hwx⟩⟩
  | different ha hop hrelation hoperands hlhs =>
    obtain ⟨hd, hx, hy, hwd, hwx, hwy⟩ := hi.compare_operands hop hoperands
    simpa using ⟨supported_exclusiveOr rfl ⟨hwx, hwx, hwy⟩,
      supported_compare hd (.inl rfl) (.inl rfl) ⟨hwd, hwx, hwx⟩⟩
  | remainder ha | flip ha | address ha => cases ha

theorem unsupported_of_isLegal (hi : f.instruction? b k = some i) (hlegal : isLegal f b k = false)
    (hexpandable : isExpandable i = false) : Unsupported i := by
  rw [isLegal, hi] at hlegal
  rw [isExpandable] at hexpandable
  cases hop : i.generic? with
  | none => simp [hop] at hlegal
  | some op =>
    cases hfloat : op.isFloat with
    | true => exact .inl ⟨op, hop, hfloat⟩
    | false =>
      cases hwide : isTooWide i with
      | true => exact .inr (isTooWide_iff.mp hwide)
      | false => cases op <;> simp_all

theorem Supported.not_masksAt63 (h : Supported i) : ¬i.MasksAt63 := by
  obtain ⟨op, hop, -, hsuits, hsize⟩ := h
  intro hmask
  cases hmask with
  | @zext dest source hop' hoperands himm hwidth =>
    have := hsize source (by simp [hoperands]) (.inr himm)
    omega
  | @trunc dest source hop' hoperands himm hwidth =>
    cases hop.symm.trans hop'
    rw [hoperands] at hsuits
    have := hsize dest (by simp [hoperands]) (.inl (hsuits.1 dest rfl))
    omega

end Target.Riscv

namespace Machine.Function

/-- On RV32 an instruction without support stops legalization, as long as there are ids. -/
theorem legalize_riscv32_error (hf : f.All (·.Shaped .riscv32 f.slots))
    (hplain : f.All (·.Plain .riscv32 f.nextId)) (h : f.legalize .riscv32 = .error e) :
    e = .outOfRange ∧ 2 ^ 32 ≤ idDemand f ∨
      ∃ i ∈ f.instructions, Riscv.Unsupported i ∧ e = f.illegal i := by
  have hsupported : ∀ {i}, i ∈ f.instructions ∨ Riscv.Supported i → Riscv.isExpandable i →
      Riscv.Supported i := by
    rintro i (hi | hi) hexpandable
    · exact Riscv.supported_of_plain (hplain i hi)
        (Riscv.not_unsupported_of_isExpandable hexpandable)
    · exact hi
  have hkept : KeptBy Arch.riscv32.target fun _ _ => Arch.riscv32.Follows Riscv.Supported f :=
    Arch.keptBy_follows (fun hi hexpandable hrewrite =>
      Riscv.supported_of_rewrite hrewrite (hsupported hi hexpandable)) nofun
  obtain ⟨f', b, k, i, hf', hstops⟩ := legalize_error (a := .riscv32) hkept
    (fun b f' hf' => weight_le_expansionBudget hf'.shaped b) (.refl hf) h
  have hmem := hf'.mem_or i (mem_of_instruction? hstops.found)
  rcases hstops.reason with ⟨hnot, rfl⟩ | ⟨hexpandable, herror⟩
  · have hi := Riscv.unsupported_of_isLegal hstops.found hstops.illegal hnot
    refine .inr ⟨i, hmem.resolve_right fun hgood => hgood.not_unsupported hi, hi, ?_⟩
    rw [illegal, illegal, hf'.name]
  · obtain ⟨rfl, hid | hmask⟩ := Arch.expand_error (a := .riscv32) hf'.shaped hstops.found
      hstops.illegal hexpandable herror
    · exact .inl ⟨rfl, Nat.le_trans hid hf'.idDemand_le⟩
    · exact absurd hmask (hsupported hmem hexpandable).not_masksAt63

theorem legalize_riscv32_of_unsupported (hplain : f.All (·.Plain .riscv32 f.nextId))
    (hi : i ∈ f.instructions) (hunsupported : Riscv.Unsupported i) :
    ∃ e, f.legalize .riscv32 = .error e := by
  cases h : f.legalize .riscv32 with
  | error e => exact ⟨e, rfl⟩
  | ok g =>
    have hkept : KeptBy Arch.riscv32.target fun _ _ g => i ∈ g.instructions := by
      refine ⟨fun {f' g b k j} hf' hj hlegal hexpandable hexpand => ?_, fun hf' _ => hf',
        fun hf' _ => hf'⟩
      refine Arch.mem_expand hj hlegal hexpandable hexpand hf' ?_ nofun
      rintro rfl
      exact Riscv.not_unsupported_of_isExpandable hexpandable hunsupported
    obtain ⟨b, k, hget⟩ := exists_instruction?_of_mem (hkept.legalize hi h)
    have hlegal : Riscv.isLegal g b k := isLegal_legalize (a := .riscv32) nofun h b k
    obtain ⟨op, hcode, -⟩ := (hplain i hi).form
    have hop : i.generic? = some op := by rw [Instruction.generic?, hcode]; rfl
    rw [Riscv.isLegal, hget] at hlegal
    rcases hunsupported with ⟨op', hop', hfloat⟩ | hwide
    · simp [hop', hfloat] at hlegal
    · simp [hop, Riscv.isTooWide_iff.mpr hwide] at hlegal

/-! ## Lowered functions -/

/-- The ids that legalization can ask for do not fit 32 bits. -/
def ExhaustsIds (f : Function) : Prop := 2 ^ 32 ≤ idDemand f

/-- Some conversion of a constant has a mask of 63 bits. -/
def MasksAt63 (f : Function) : Prop := ∃ i ∈ f.instructions, i.MasksAt63

/-- **How legalization of a lowered function ends.**  Its limits play no part.  It succeeds on
AArch64 unless a constant is masked to 63 bits, and fails on RV32 exactly if some instruction is
floating point or names a value wider than a register, which the failure then shows.  Nothing else
happens but that the 32-bit ids run out. -/
theorem legalize_outcome (a : Arch) (f : Function) (h : a.target.Produces f) :
    (∀ rounds extra, 4 ≤ rounds →
      f.legalizeWithin a.target rounds extra = f.legalize a.target) ∧
    (f.ExhaustsIds ∧ f.legalize a.target = .error .outOfRange ∨
      match a with
      | .aarch64 =>
        ((∃ g, f.legalize .aarch64 = .ok g) ↔ ¬f.MasksAt63) ∧
          (f.MasksAt63 → f.legalize .aarch64 = .error .outOfRange)
      | .riscv32 =>
        ((∃ e, f.legalize .riscv32 = .error e) ↔ ∃ i ∈ f.instructions, Riscv.Unsupported i) ∧
          ∀ e, f.legalize .riscv32 = .error e →
            ∃ i ∈ f.instructions, Riscv.Unsupported i ∧
              e = .illegalInstruction f.name i.text) := by
  refine ⟨fun rounds extra hrounds => legalizeWithin_eq ⟨rfl, h.shaped⟩ hrounds extra, ?_⟩
  cases a with
  | aarch64 =>
    have hmasks : f.MasksAt63 → f.legalize .aarch64 = .error .outOfRange :=
      fun ⟨i, hi, hmask⟩ => legalize_aarch64_of_masksAt63 h.shaped hi hmask
    cases hg : f.legalize .aarch64 with
    | ok g =>
      rw [hg] at hmasks
      have hnot : ¬f.MasksAt63 := fun hmask => nomatch hmasks hmask
      exact .inr ⟨⟨fun _ => hnot, fun _ => ⟨g, rfl⟩⟩, hmasks⟩
    | error e =>
      obtain ⟨rfl, hid | hmask⟩ := legalize_aarch64_error h.shaped hg
      · exact .inl ⟨hid, hg⟩
      · exact .inr ⟨⟨nofun, fun hnot => absurd hmask hnot⟩, fun _ => rfl⟩
  | riscv32 =>
    have hstops := fun i hi => legalize_riscv32_of_unsupported (i := i) h.plain hi
    cases hg : f.legalize .riscv32 with
    | ok g =>
      rw [hg] at hstops
      exact .inr ⟨⟨nofun, fun ⟨i, hi, hbad⟩ => hstops i hi hbad⟩, nofun⟩
    | error e =>
      rcases legalize_riscv32_error h.shaped h.plain hg with ⟨rfl, hid⟩ | ⟨i, hi, hbad, rfl⟩
      · exact .inl ⟨hid, hg⟩
      · refine .inr ⟨⟨fun _ => ⟨i, hi, hbad⟩, fun _ => ⟨_, rfl⟩⟩, fun e he => ?_⟩
        cases he
        exact ⟨i, hi, hbad, rfl⟩

/-- `rest(a) = a % 7` on 64 bits, which only one of the targets has. -/
def wideRemainder : Ir.Module where
  name := "remainder"
  functions := [{
    name := "rest"
    returnType := .i64
    parameters := [⟨"a", .i64, false⟩]
    blocks := [{
      name := "entry"
      instructions :=
        [.binary 0 .mod (.param "a" .i64) (.constant 7 .i64) .i64,
          .ret (some (.temp 0 .i64))] }] }]

theorem wideRemainder_outcome :
    (∃ f, Arch.aarch64.target.Produces f ∧ ¬f.ExhaustsIds ∧ ¬f.MasksAt63 ∧
      ∃ g, f.legalize .aarch64 = .ok g) ∧
    ∃ f, Arch.riscv32.target.Produces f ∧ ¬f.ExhaustsIds ∧
      ∃ i ∈ f.instructions, Riscv.Unsupported i ∧
        f.legalize .riscv32 = .error (.illegalInstruction f.name i.text) := by
  have hlower : ∀ a : Arch, ∃ f, a.target.Produces f ∧ idDemand f < 2 ^ 32 ∧
      f.instructions.any (·.isConstantConversion) = false ∧ f.instructions.any Riscv.isTooWide := by
    intro a
    have hrun : (Lowering.lowerModule a.target wideRemainder).map (fun code =>
        code.functions.map fun f => (decide (idDemand f < 2 ^ 32),
          f.instructions.any (·.isConstantConversion), f.instructions.any Riscv.isTooWide)) =
        .ok [(true, false, true)] := by
      cases a <;> decide +kernel
    obtain ⟨code, hcode, hfunctions⟩ := map_eq_ok.mp hrun
    obtain ⟨f, rest, hf, hfacts, -⟩ := List.map_eq_cons_iff.mp hfunctions
    simp only [Prod.mk.injEq, decide_eq_true_eq] at hfacts
    exact ⟨f, ⟨wideRemainder, code, hcode, f, by simp [hf], .inl rfl⟩, hfacts⟩
  refine ⟨?_, ?_⟩
  · obtain ⟨f, hproduces, hids, hconversions, -⟩ := hlower .aarch64
    have hids : ¬f.ExhaustsIds := Nat.not_le_of_lt hids
    have hmasks : ¬f.MasksAt63 := by
      rintro ⟨i, hi, hmask⟩
      simpa [hmask.isConstantConversion] using List.any_eq_false.mp hconversions i hi
    have houtcome := (legalize_outcome .aarch64 f hproduces).2.resolve_left fun h => hids h.1
    exact ⟨f, hproduces, hids, hmasks, houtcome.1.mpr hmasks⟩
  · obtain ⟨f, hproduces, hids, -, hwide⟩ := hlower .riscv32
    have hids : ¬f.ExhaustsIds := Nat.not_le_of_lt hids
    obtain ⟨i, hi, hwide⟩ := List.any_eq_true.mp hwide
    have houtcome := (legalize_outcome .riscv32 f hproduces).2.resolve_left fun h => hids h.1
    obtain ⟨e, he⟩ := houtcome.1.mpr ⟨i, hi, .inr (Riscv.isTooWide_iff.mp hwide)⟩
    obtain ⟨j, hj, hunsupported, rfl⟩ := houtcome.2 e he
    exact ⟨f, hproduces, hids, j, hj, hunsupported, he⟩

end Machine.Function

end Retarget
