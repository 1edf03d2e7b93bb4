import Mathlib.Data.List.Chain
import Retarget.Proofs.Legality.Meaning
import Retarget.Proofs.Legality.Outcome

/-!
# Legalization preserves meaning

A legalized function runs as the function it comes from (`legalize_preserves`).  Each expansion puts
code in the place of other code that it matches, so the functions before and after it run alike, up
to registers that are new or that only held what a folded load had loaded.  What an expansion relies
on, expansions keep (`Preserves`).

Constants have 64 bits and a folded load extends all that it loads.  Conversions of constants have to
leave a value that can be written so, and a zero extension behind a load has to read all of it
(`Measured`).
-/

namespace Retarget

open Machine Target

/-- A relation that the new elements are always in holds along a list in which they take the place
of others. -/
theorem isChain_replace {α : Type} {R : α → α → Prop} {before old new after : List α}
    (h : (before ++ (old ++ after)).IsChain R) (hnew : ∀ x y, x ∈ new ∨ y ∈ new → R x y)
    (hne : new ≠ []) : (before ++ (new ++ after)).IsChain R := by
  have hpairs : new.Pairwise R :=
    List.pairwise_of_forall_mem_list fun x hx y _ => hnew x y (.inl hx)
  refine h.left_of_append.append (hpairs.isChain.append h.right_of_append.right_of_append ?_) ?_
  · exact fun x hx y _ => hnew x y (.inl (List.mem_of_getLast? hx))
  · intro x _ y hy
    rw [List.head?_append_of_ne_nil _ hne] at hy
    exact hnew x y (.inr (List.mem_of_head? hy))

namespace Machine

variable {M : Interpretation} {f g : Function} {b k : Nat} {old new : List Instruction}
  {keep : RegId → Prop}

/-! ## Code that is left alone -/

theorem within_of_occurrences {is : List Instruction} (h : ∀ r, ¬keep r → occurrences is r = 0) :
    ∀ i ∈ is, i.Within keep := by
  intro i hi o ho r hr
  by_contra hkeep
  have hzero := List.countP_eq_zero.mp (h r hkeep) o (List.mem_flatMap.mpr ⟨i, hi, ho⟩)
  simp [hr] at hzero

theorem occurrences_eq_zero_of_within {is : List Instruction} (h : ∀ i ∈ is, i.Within keep)
    {r : RegId} (hr : ¬keep r) : occurrences is r = 0 := by
  refine List.countP_eq_zero.mpr fun o ho => ?_
  obtain ⟨i, hi, ho⟩ := List.mem_flatMap.mp ho
  rw [beq_iff_eq]
  exact fun heq => hr (h i hi o ho r heq)

namespace Function.Replaces

theorem occurrences_le (h : f.Replaces b k old new g) (r : RegId) :
    occurrences old r ≤ mentions f r := by
  obtain ⟨before, after, hf, -⟩ := h.instructions_eq
  rw [mentions, hf]
  simp only [occurrences_append]
  omega

theorem blockIndex?_eq (h : f.Replaces b k old new g) : g.blockIndex? = f.blockIndex? := by
  obtain ⟨block, before, after, hblock, -, -, hg⟩ := h.code
  obtain ⟨hb, hget⟩ := List.getElem?_eq_some_iff.mp hblock
  have hnames : g.blocks.map (·.name) = f.blocks.map (·.name) := by
    have hb' : b < (f.blocks.map (·.name)).length := by simpa using hb
    have hname : (f.blocks.map (·.name))[b] = block.name := by simp [hget]
    rw [hg, List.map_set]
    dsimp only
    rw [← hname, List.set_getElem_self]
  funext name
  have hfind := congrArg (List.findIdx? (· == name)) hnames
  rwa [List.findIdx?_map, List.findIdx?_map] at hfind

/-- The code of every block before and after the replacement.  What is left alone mentions only
registers that are kept, if nothing but the replaced code mentions others. -/
theorem rest_cases (h : f.Replaces b k old new g)
    (hkeep : ∀ r, ¬keep r → mentions f r = occurrences old r) (c : Nat) :
    (f.rest c 0 = g.rest c 0 ∧ ∀ i ∈ f.rest c 0, i.Within keep) ∨
      ∃ before after, f.rest c 0 = before ++ (old ++ after) ∧
        g.rest c 0 = before ++ (new ++ after) ∧
        (∀ i ∈ before, i.Within keep) ∧ ∀ i ∈ after, i.Within keep := by
  obtain ⟨block, before, after, hblock, hcode, -, hg⟩ := h.code
  obtain ⟨hb, hget⟩ := List.getElem?_eq_some_iff.mp hblock
  have hf : f.blocks = f.blocks.take b ++ block :: f.blocks.drop (b + 1) := by
    rw [← hget, ← List.drop_eq_getElem_cons hb, List.take_append_drop]
  have hothers : ∀ r, ¬keep r →
      occurrences ((f.blocks.take b ++ f.blocks.drop (b + 1)).flatMap (·.instructions)) r = 0 ∧
        occurrences before r = 0 ∧ occurrences after r = 0 := by
    intro r hr
    have hmentions := hkeep r hr
    rw [mentions, Function.instructions, hf] at hmentions
    simp only [List.flatMap_append, List.flatMap_cons, occurrences_append, hcode] at hmentions ⊢
    omega
  by_cases hc : c = b
  · subst hc
    refine .inr ⟨before, after, ?_, ?_, within_of_occurrences fun r hr => (hothers r hr).2.1,
      within_of_occurrences fun r hr => (hothers r hr).2.2⟩
    · rw [rest, hblock]
      simp [hcode]
    · rw [rest, hg, List.getElem?_set_self hb]
      simp
  · refine .inl ⟨?_, fun i hi => ?_⟩
    · rw [rest, rest, hg, List.getElem?_set_ne (Ne.symm hc)]
    · refine within_of_occurrences (fun r hr => (hothers r hr).1) i ?_
      rw [rest] at hi
      split at hi
      · next other hother =>
        refine List.mem_flatMap.mpr ⟨other, ?_, List.mem_of_mem_drop hi⟩
        obtain ⟨hlt, rfl⟩ := List.getElem?_eq_some_iff.mp hother
        rcases Nat.lt_or_gt_of_ne hc with hbefore | hafter
        · exact List.mem_append_left _ (List.mem_take_iff_getElem.mpr ⟨c, by omega, rfl⟩)
        · refine List.mem_append_right _ (List.mem_drop_iff_getElem.mpr ⟨c - (b + 1), by omega, ?_⟩)
          congr 1
          omega
      · cases hi

/-- **Code that matches may take the place of other code.** -/
theorem alike (h : f.Replaces b k old new g)
    (hkeep : ∀ r, ¬keep r → mentions f r = occurrences old r)
    (hmatches : Matches M keep f old g new) : Alike M keep f g := by
  refine ⟨h.blockIndex?_eq, h.length_blocks, fun c => ?_⟩
  rcases h.rest_cases hkeep c with ⟨heq, hwithin⟩ | ⟨before, after, hf, hg, hbefore, hafter⟩
  · rw [← heq]
    exact .refl h.frame hwithin
  · rw [hf, hg]
    exact (Matches.refl h.frame hbefore).append (hmatches.append (.refl h.frame hafter))

end Function.Replaces

end Machine

/-! ## What expansions keep -/

namespace Machine.Instruction

variable {a : Arch} {i : Instruction} {op : GenericOp}

theorem regular_of_threeAddress (hop : i.generic? = some op) (hthree : op.isThreeAddress)
    (hwidth : ∀ x ∈ i.operands, ∀ y ∈ i.operands, x.size = y.size) : i.Regular a := by
  refine ⟨(oneWidth_of_threeAddress hop hthree).mpr hwidth, fun hcmp => ?_,
    fun hop' hconversion => ?_, fun haddress => ?_⟩
  · cases hop.symm.trans hcmp
    cases hthree
  · cases hop.symm.trans hop'
    have hnot : op.isWidthConversion = false := by cases op <;> first | rfl | cases hthree
    simp [hnot] at hconversion
  · cases hop.symm.trans haddress
    cases hthree

theorem regular_of_cmp (hop : i.generic? = some .cmp)
    (hwidth : ∀ x ∈ i.operands.tail, ∀ y ∈ i.operands.tail, x.size = y.size)
    (hcompared : ∀ o ∈ i.operands.tail, (o.isRegLike ∨ o.isImmediate) ∧
      (a = .riscv32 → i.relation = some .eq → 0 < o.size)) : i.Regular a := by
  refine ⟨(oneWidth_of_cmp hop).mpr hwidth, fun _ => hcompared, fun hop' hconversion => ?_,
    fun haddress => ?_⟩
  · cases hop.symm.trans hop'
    cases hconversion
  · cases hop.symm.trans haddress

theorem regular_of_other
    (hop : ∀ op, i.generic? = some op → op = .loadImm ∨ op = .store ∨ op = .zextLoad) :
    i.Regular a := by
  refine ⟨oneWidth_of_other fun op' hop' => ?_, fun hcmp => ?_, fun {op'} _ _ _ hop' hconversion =>
    ?_,
    fun haddress => ?_⟩
  · rcases hop op' hop' with rfl | rfl | rfl <;> exact ⟨nofun, rfl⟩
  · simpa using hop _ hcmp
  · rcases hop op' hop' with rfl | rfl | rfl <;> cases hconversion
  · simpa using hop _ haddress

end Machine.Instruction

namespace Target

variable {a : Arch} {f g : Function} {b k : Nat} {i : Instruction} {next used : Nat}
  {new : List Instruction}

theorem Rewrite.mentioned (h : Rewrite a next i used new) {j : Instruction} (hj : j ∈ new)
    {o : Operand} (ho : o ∈ j.operands) {r : RegId} (hr : o.unallocated? = some r) :
    (∃ o' ∈ i.operands, o'.unallocated? = some r) ∨ ∃ n < used, r = next + n := by
  refine h.operands (Q := fun o => ∀ r, o.unallocated? = some r →
      (∃ o' ∈ i.operands, o'.unallocated? = some r) ∨ ∃ n < used, r = next + n)
    (fun o ho r hr => .inl ⟨o, ho, hr⟩)
    (fun n hn ty r hr => .inr ⟨n, hn, (Option.some.inj hr).symm⟩) (fun himm r hr => ?_)
    (fun _ _ _ hr => by cases hr) (fun _ _ _ hr => by cases hr) j hj o ho r hr
  rw [Operand.unallocated?_of_isImmediate himm] at hr
  cases hr

theorem Rewrite.within (h : Rewrite a next i used new) (hi : i.Within (· < next)) :
    ∀ j ∈ new, j.Within (· < next + used) := by
  intro j hj o ho r hr
  rcases h.mentioned hj ho hr with ⟨o', ho', hr'⟩ | ⟨n, hn, rfl⟩
  · exact Nat.lt_of_lt_of_le (hi o' ho' r hr') (Nat.le_add_right _ _)
  · exact Nat.add_lt_add_left hn next

theorem Rewrites.mentions_eq_zero (h : Rewrites a f b k i g) {r : RegId} (hlt : r < f.nextId)
    (hr : mentions f r = 0) : mentions g r = 0 := by
  obtain ⟨used, new, hrewrite, hreplaces, -⟩ := h
  have hmentions := mentions_of_replaces hreplaces r
  suffices hnew : occurrences new r = 0 by omega
  have hold : occurrences [i] r = 0 := Nat.le_zero.mp (hr ▸ hreplaces.occurrences_le r)
  have hwithin : ∀ j ∈ new, j.Within (· ≠ r) := by
    rintro j hj o ho x hx rfl
    rcases hrewrite.mentioned hj ho hx with ⟨o', ho', hx'⟩ | ⟨n, -, rfl⟩
    · have hnone := List.countP_eq_zero.mp hold o' (by simpa using ho')
      simp [hx'] at hnone
    · exact Nat.not_lt.mpr (Nat.le_add_right _ _) hlt
  exact occurrences_eq_zero_of_within hwithin (not_not.mpr rfl)

theorem size_of_mem_set {os : List Operand} {n : Nat} {old o x : Operand} (hold : os[n]? = some old)
    (hsize : o.size = old.size) (hx : x ∈ os.set n o) : ∃ y ∈ os, x.size = y.size := by
  rcases List.mem_or_eq_of_mem_set hx with hx | rfl
  · exact ⟨x, hx, rfl⟩
  · exact ⟨old, List.mem_of_getElem? hold, hsize⟩

theorem size_eq_of_set {os : List Operand} {n : Nat} {old o : Operand} (hold : os[n]? = some old)
    (hsize : o.size = old.size) (hwidth : ∀ x ∈ os, ∀ y ∈ os, x.size = y.size) :
    ∀ x ∈ os.set n o, ∀ y ∈ os.set n o, x.size = y.size := by
  intro x hx y hy
  obtain ⟨x', hx', hx⟩ := size_of_mem_set hold hsize hx
  obtain ⟨y', hy', hy⟩ := size_of_mem_set hold hsize hy
  rw [hx, hy, hwidth x' hx' y' hy']

theorem regular_generic {op : GenericOp} {d x y : Operand} (hop : op.isThreeAddress)
    (hx : x.size = d.size) (hy : y.size = d.size) :
    (Instruction.generic op [d, x, y]).markExpanded.Regular a := by
  refine Instruction.regular_of_threeAddress rfl hop ?_
  have hsize : ∀ o ∈ [d, x, y], o.size = d.size := by simp [hx, hy]
  exact fun o ho o' ho' => (hsize o ho).trans (hsize o' ho').symm

theorem regular_compare {r : Relation} {d x y : Operand} (hr : r ≠ .eq) (hsize : x.size = y.size)
    (hx : x.isRegLike ∨ x.isImmediate) (hy : y.isRegLike ∨ y.isImmediate) :
    (Riscv.compare r d x y).Regular a := by
  refine Instruction.regular_of_cmp rfl ?_ ?_
  · show ∀ o ∈ [x, y], ∀ o' ∈ [x, y], o.size = o'.size
    simp [hsize]
  · show ∀ o ∈ [x, y], (o.isRegLike ∨ o.isImmediate) ∧ (a = .riscv32 → some r = some .eq → 0 < o.size)
    simp [hx, hy, hr]

theorem regular_sides (hi : i.Regular a) (hop : i.generic? = some .cmp) {d x y : Operand}
    (hoperands : i.operands = [d, x, y]) :
    x.size = y.size ∧ (x.isRegLike ∨ x.isImmediate) ∧ (y.isRegLike ∨ y.isImmediate) := by
  have hwidth := (Instruction.oneWidth_of_cmp hop).mp hi.oneWidth
  have hcompared := hi.compared hop
  rw [hoperands] at hwidth hcompared
  exact ⟨hwidth x (by simp) y (by simp), (hcompared x (by simp)).1, (hcompared y (by simp)).1⟩

theorem regular_loadImmediate (dest imm : Operand) : (loadImmediate dest imm).Regular a := by
  refine Instruction.regular_of_other fun _ hop => ?_
  cases hop
  exact .inl rfl

theorem regular_replaceOperand (hi : i.Regular a) (hop : i.generic? = some .cmp) {n : Nat}
    {imm : Operand} (hn : i.operand? (n + 1) = some imm) (r : RegId) :
    (i.replaceOperand (n + 1) (.virtualReg r imm.ty)).Regular a := by
  have htail : (i.operands.set (n + 1) (.virtualReg r imm.ty)).tail =
      i.operands.tail.set n (.virtualReg r imm.ty) := by
    cases i.operands <;> rfl
  have hget : i.operands.tail[n]? = some imm := by
    rw [List.getElem?_tail]
    exact hn
  have hcompared := hi.compared hop
  refine Instruction.regular_of_cmp hop ?_ ?_
  · rw [Instruction.operands_replaceOperand, htail]
    exact size_eq_of_set hget rfl ((Instruction.oneWidth_of_cmp hop).mp hi.oneWidth)
  · rw [Instruction.operands_replaceOperand, htail]
    exact forall_mem_set hcompared _ ⟨.inl rfl, (hcompared imm (List.mem_of_getElem? hget)).2⟩

theorem Rewrite.regular (h : Rewrite a next i used new) (hi : i.Regular a) :
    ∀ j ∈ new, j.Regular a := by
  cases h with
  | @materialize op n imm hop huse hn himm =>
    rw [List.forall_mem_cons, List.forall_mem_singleton]
    refine ⟨regular_loadImmediate _ _, ?_⟩
    rcases huse with rfl | ⟨hthree | rfl, hpos⟩
    · refine Instruction.regular_of_other fun op hop' => ?_
      cases hop.symm.trans hop'
      exact .inr (.inl rfl)
    · exact Instruction.regular_of_threeAddress hop hthree
        (size_eq_of_set hn rfl ((Instruction.oneWidth_of_threeAddress hop hthree).mp hi.oneWidth))
    · obtain ⟨n, rfl⟩ : ∃ m, n = m + 1 := ⟨n - 1, by omega⟩
      exact regular_replaceOperand hi hop hn next
  | convert hop hconversion hoperands hvalue hfolded =>
    rw [List.forall_mem_singleton]
    exact regular_loadImmediate _ _
  | @remainder op division dest lhs rhs ha hop hdivision hoperands hlhs =>
    have hthree : op.isThreeAddress ∧ division.isThreeAddress := by
      rcases hdivision with ⟨rfl, rfl⟩ | ⟨rfl, rfl⟩ <;> exact ⟨rfl, rfl⟩
    have hwidth := (Instruction.oneWidth_of_threeAddress hop hthree.1).mp hi.oneWidth
    rw [hoperands] at hwidth
    have hlhs' : lhs.size = dest.size := hwidth lhs (by simp) dest (by simp)
    have hrhs' : rhs.size = dest.size := hwidth rhs (by simp) dest (by simp)
    rw [List.forall_mem_cons, List.forall_mem_cons, List.forall_mem_singleton]
    exact ⟨regular_generic hthree.2 hlhs' hrhs', regular_generic rfl rfl hrhs',
      regular_generic rfl hlhs' rfl⟩
  | @flip op flipped imm value negated ha hop hflipped hfirst hn hvalue hnegated hfits =>
    have hthree : op.isThreeAddress ∧ flipped.isThreeAddress := by
      rcases hflipped with ⟨rfl, rfl⟩ | ⟨rfl, rfl⟩ <;> exact ⟨rfl, rfl⟩
    rw [List.forall_mem_singleton]
    exact Instruction.regular_of_threeAddress rfl hthree.2 (size_eq_of_set hn rfl
      ((Instruction.oneWidth_of_threeAddress hop hthree.1).mp hi.oneWidth))
  | @address dest source rest symbol ha hop hoperands hsymbol =>
    obtain ⟨dest', name, hoperands', hty, -⟩ := hi.address hop
    cases hoperands.symm.trans hoperands'
    rw [List.forall_mem_cons, List.forall_mem_singleton]
    refine ⟨Instruction.regular_of_other (fun _ h => by cases h), regular_generic rfl rfl ?_⟩
    rw [Operand.size, Operand.size, hty]
    rfl
  | @swap relation dest lhs rhs ha hop hrelation hswap hoperands hlhs =>
    obtain ⟨hsize, hx, hy⟩ := regular_sides hi hop hoperands
    rw [List.forall_mem_singleton]
    refine regular_compare ?_ hsize.symm hy hx
    rcases hswap with rfl | rfl <;> rintro ⟨⟩
  | @notLess dest lhs rhs ha hop hrelation hoperands hlhs =>
    obtain ⟨hsize, hx, hy⟩ := regular_sides hi hop hoperands
    rw [List.forall_mem_cons, List.forall_mem_singleton]
    exact ⟨regular_compare (by rintro ⟨⟩) hsize hx hy, regular_generic rfl rfl rfl⟩
  | @equal dest lhs rhs ha hop hrelation hoperands hlhs =>
    obtain ⟨hsize, -, -⟩ := regular_sides hi hop hoperands
    rw [List.forall_mem_cons, List.forall_mem_singleton]
    exact ⟨regular_generic rfl rfl hsize.symm,
      regular_compare (by rintro ⟨⟩) rfl (.inl rfl) (.inr rfl)⟩
  | @different dest lhs rhs ha hop hrelation hoperands hlhs =>
    obtain ⟨hsize, -, -⟩ := regular_sides hi hop hoperands
    rw [List.forall_mem_cons, List.forall_mem_singleton]
    exact ⟨regular_generic rfl rfl hsize.symm,
      regular_compare (by rintro ⟨⟩) rfl (.inl rfl) (.inl rfl)⟩

end Target

/-! ## Loaded values -/

namespace Machine.Function

/-- The zero extension is all that reads the register that the load loads. -/
structure Feeds (f : Function) (load zext : Instruction) (loaded source : Operand) (r : RegId) :
    Prop where
  isLoad : load.generic? = some .load
  isZext : zext.generic? = some .zext
  head : load.operands.head? = some loaded
  loads : loaded.unallocated? = some r
  operand : zext.operand? 1 = some source
  reads : source.kind = .virtualReg r
  mentions_eq : mentions f r = 2

/-- A zero extension that is all that reads a loaded register reads all of it. -/
def ReadsAsLoaded (f : Function) (load zext : Instruction) : Prop :=
  ∀ loaded source r, f.Feeds load zext loaded source r → source.size = loaded.size

/-- The load of the register is gone, and so is the zero extension that was all that read it. -/
def FoldedAway (f g : Function) (r : RegId) : Prop :=
  mentions g r = 0 ∧ ∃ load ∈ f.instructions, ∃ zext ∈ f.instructions, ∃ loaded source,
    f.Feeds load zext loaded source r

/-- The registers of `f` that `g` has the same values in. -/
def Keeps (f g : Function) (r : RegId) : Prop := r < f.nextId ∧ ¬FoldedAway f g r

/-- What legalization takes for granted of the widths in a function. -/
structure Measured (a : Arch) (f : Function) : Prop where
  oneWidth : f.All (·.OneWidth)
  /-- There is a one to compare with. -/
  compared : a = .riscv32 → ∀ i ∈ f.instructions, i.generic? = some .cmp → i.relation = some .eq →
    ∀ o ∈ i.operands.tail, 0 < o.size
  converts : ∀ i ∈ f.instructions, ∀ op dest source value, i.generic? = some op →
    i.operands = [dest, source] → source.immediate? = some value →
    op.Converts value source.size dest.size
  /-- A load and the instruction right behind it. -/
  loaded : ∀ b ∈ f.blocks, b.instructions.IsChain f.ReadsAsLoaded

end Machine.Function

namespace Target

variable {a : Arch} {f g : Function} {b k : Nat} {i : Instruction}

/-- Neither a load nor a zero extension. -/
def Inert (i : Instruction) : Prop := i.generic? ≠ some .load ∧ i.generic? ≠ some .zext

theorem Rewrite.inert {next used : Nat} {new : List Instruction} (h : Rewrite a next i used new) :
    ∀ j ∈ new, Inert j := by
  intro j hj
  refine ⟨fun hop => ?_, fun hop => ?_⟩ <;>
    simpa [GenericOp.isThreeAddress] using h.generic?_cases hj hop

theorem inert_extendingLoad (load : Instruction) (dest loaded : Operand) (rest : List Operand) :
    Inert (extendingLoad load dest loaded rest) :=
  ⟨nofun, nofun⟩

theorem readsAsLoaded_of_inert {load zext : Instruction} (h : Inert load ∨ Inert zext) :
    f.ReadsAsLoaded load zext :=
  fun _ _ _ hfeeds =>
    h.elim (fun h => absurd hfeeds.isLoad h.1) fun h => absurd hfeeds.isZext h.2

theorem occurrences_add_le {is : List Instruction} {i j : Instruction} (hi : i ∈ is) (hj : j ∈ is)
    (hne : i ≠ j) (r : RegId) : occurrences [i] r + occurrences [j] r ≤ occurrences is r := by
  obtain ⟨before, after, rfl⟩ := List.append_of_mem hi
  have hmem : j ∈ before ++ after := by
    simp only [List.mem_append, List.mem_cons] at hj ⊢
    rcases hj with hj | rfl | hj
    · exact .inl hj
    · exact absurd rfl hne
    · exact .inr hj
  obtain ⟨before', after', heq⟩ := List.append_of_mem hmem
  have hsum := congrArg (occurrences · r) heq
  simp only [occurrences_append, occurrences_cons, occurrences_nil] at hsum ⊢
  omega

theorem occurrences_pos {o : Operand} (ho : o ∈ i.operands) {r : RegId}
    (hr : o.unallocated? = some r) : 0 < occurrences [i] r := by
  rw [occurrences_cons, occurrences_nil, Nat.add_zero]
  exact List.countP_pos_iff.mpr ⟨o, ho, by simpa using hr⟩

namespace Folds

variable {load zext : Instruction} {dest source loaded : Operand} {extra rest : List Operand}
  {r : RegId} (h : Folds f b k g load zext dest source loaded extra rest r)
include h

theorem ne : load ≠ zext := by
  rintro rfl
  cases h.generic?_load.symm.trans h.isZext

theorem occurrences_load_pos : 0 < occurrences [load] r :=
  occurrences_pos (by simp [h.loadOperands]) h.loads

theorem occurrences_zext_pos : 0 < occurrences [zext] r :=
  occurrences_pos (o := source) (by simp [h.zextOperands]) (by simp [Operand.unallocated?, h.reads])

/-- The two instructions are all that mentions the loaded register. -/
theorem occurrences_eq : occurrences [load, zext] r = 2 := by
  have hle := h.replaces.2.occurrences_le r
  have hload := h.occurrences_load_pos
  have hzext := h.occurrences_zext_pos
  rw [h.mentions_eq] at hle
  simp only [occurrences_cons, occurrences_nil] at hle hload hzext ⊢
  omega

theorem mentions_le_mentions (x : RegId) : mentions g x ≤ mentions f x := by
  have hmentions := h.mentions_add x
  omega

theorem mentions_loaded : mentions g r = 0 := by
  have hmentions := h.mentions_add r
  rw [if_pos rfl, h.mentions_eq] at hmentions
  omega

theorem within_ne : (extendingLoad load dest loaded rest).Within (· ≠ r) := by
  refine within_of_occurrences (fun x hx => ?_) _ (List.mem_singleton_self _)
  obtain rfl : x = r := not_not.mp hx
  have hmentions := mentions_of_replaces h.replaces.2 x
  rw [h.mentions_loaded, h.occurrences_eq, h.mentions_eq] at hmentions
  omega

theorem within_lt (hf : f.All (·.Within (· < f.nextId))) :
    (extendingLoad load dest loaded rest).Within (· < f.nextId) := by
  refine within_of_occurrences (fun x hx => ?_) _ (List.mem_singleton_self _)
  have hzero : mentions f x = 0 := occurrences_eq_zero_of_within hf hx
  have hmentions := mentions_of_replaces h.replaces.2 x
  have hold := h.replaces.2.occurrences_le x
  have hle := h.mentions_le_mentions x
  omega

theorem rest_eq : ∃ after, (f.rest b 0).drop (k - 1) = load :: zext :: after := by
  obtain ⟨after, hrest, -⟩ := h.replaces.2.rest_eq
  refine ⟨after, Eq.trans ?_ hrest⟩
  rw [Function.rest, Function.rest]
  cases f.blocks[b]? <;> simp

end Folds

end Target

/-! ## The invariant -/

namespace Arch

variable {a : Arch} {M : Interpretation} {f g h : Function} {b k : Nat} {i : Instruction}

/-- What expansions keep of a function `h` that comes from `f`. -/
structure Preserves (a : Arch) (M : Interpretation) (f h : Function) : Prop where
  source : f.All (·.Within (· < f.nextId))
  tidy : h.Tidy
  regular : h.All (·.Regular a)
  within : h.All (·.Within (· < h.nextId))
  nextId_le : f.nextId ≤ h.nextId
  original : ∀ i ∈ h.instructions, ¬Inert i → i ∈ f.instructions
  chained : ∀ b, (h.rest b 0).IsChain f.ReadsAsLoaded
  mentions_le : ∀ r, mentions h r ≠ 0 → mentions f r ≤ mentions h r
  runs : ∀ (s : State M) n p, f.after n s = some p →
    ∃ q, h.after n s = some q ∧ p.Agree (f.Keeps h) q

namespace Preserves

/-- Runs stay alike when code takes the place of other code that it matches. -/
theorem runs_of_alike (hf : a.Preserves M f h) {keep : RegId → Prop} (halike : Alike M keep h g)
    (hkeep : ∀ r, f.Keeps g r → f.Keeps h r ∧ keep r) (s : State M) (n : Nat) (p : Progress M)
    (hp : f.after n s = some p) : ∃ q, g.after n s = some q ∧ p.Agree (f.Keeps g) q := by
  obtain ⟨q, hq, hpq⟩ := hf.runs s n p hp
  obtain ⟨q', hq', hqq'⟩ := halike.after (.refl _ s) hq
  exact ⟨q', hq', (hpq.trans hqq').mono hkeep⟩

theorem chained_of_replaces (hf : a.Preserves M f h) {old new : List Instruction}
    (hreplaces : h.Replaces b k old new g) (hnew : ∀ j ∈ new, Inert j) (hne : new ≠ []) (c : Nat) :
    (g.rest c 0).IsChain f.ReadsAsLoaded := by
  have hchain := hf.chained c
  have hkeep : ∀ r : RegId, ¬True → mentions h r = occurrences old r := by simp
  rcases hreplaces.rest_cases hkeep c with ⟨heq, -⟩ | ⟨before, after, hold, hg, -, -⟩
  · rwa [← heq]
  · rw [hold] at hchain
    rw [hg]
    refine isChain_replace hchain (fun x y hxy => readsAsLoaded_of_inert ?_) hne
    exact hxy.imp (hnew x) (hnew y)

theorem original_of_replaces (hf : a.Preserves M f h) {old new : List Instruction}
    (hreplaces : h.Replaces b k old new g) (hnew : ∀ j ∈ new, Inert j) :
    ∀ i ∈ g.instructions, ¬Inert i → i ∈ f.instructions := by
  intro i hi hinert
  rcases hreplaces.mem_instructions hi with hi | hi
  · exact hf.original i hi hinert
  · exact absurd (hnew i hi) hinert

theorem rewrite (hM : a.Models M) (hf : a.Preserves M f h) (hi : h.instruction? b k = some i)
    (hexpandable : a.target.isExpandable i) (hrewrites : Rewrites a h b k i g) :
    a.Preserves M f g := by
  obtain ⟨used, new, hrewrite, hreplaces, hnext⟩ := id hrewrites
  have hmem := Function.mem_of_instruction? hi
  have hle : h.nextId ≤ g.nextId := by omega
  have hne : new ≠ [] := by
    rintro rfl
    cases hrewrite
  refine ⟨hf.source, hrewrites.tidy hf.tidy, hreplaces.all hf.regular
    (hrewrite.regular (hf.regular i hmem)),
    ?_, Nat.le_trans hf.nextId_le hle, hf.original_of_replaces hreplaces hrewrite.inert,
    hf.chained_of_replaces hreplaces hrewrite.inert hne, fun r hr => ?_, ?_⟩
  · refine hreplaces.all (fun j hj o ho r hr => ?_) ?_
    · exact Nat.lt_of_lt_of_le (hf.within j hj o ho r hr) hle
    · rw [hnext]
      exact hrewrite.within (hf.within i hmem)
  · have hmentions := mentions_of_replaces hreplaces r
    have hold := hrewrite.occurrences_le (hf.tidy i hmem) r
    by_cases hzero : mentions h r = 0
    · -- the id is new
      have hnew : ¬r < f.nextId := fun hlt =>
        hr (hrewrites.mentions_eq_zero (Nat.lt_of_lt_of_le hlt hf.nextId_le) hzero)
      have hnone : mentions f r = 0 := occurrences_eq_zero_of_within hf.source hnew
      rw [hnone]
      exact Nat.zero_le _
    · exact Nat.le_trans (hf.mentions_le r hzero) (by omega)
  · -- new registers are all that may differ
    have halike : Alike M (· < h.nextId) h g := by
      refine hreplaces.alike (fun r hr => ?_) (.of_old_within hreplaces.frame ?_ ?_)
      · have hzero : mentions h r = 0 := occurrences_eq_zero_of_within hf.within hr
        have hold := hreplaces.occurrences_le r
        omega
      · rw [List.forall_mem_singleton]
        exact hf.within i hmem
      · exact hrewrite.stands hM (hf.within i hmem) (hf.regular i hmem) hexpandable
    refine hf.runs_of_alike halike fun r hr => ⟨⟨hr.1, fun hfolded => hr.2 ?_⟩, ?_⟩
    · have hlt := Nat.lt_of_lt_of_le hr.1 hf.nextId_le
      exact ⟨hrewrites.mentions_eq_zero hlt hfolded.1, hfolded.2⟩
    · exact Nat.lt_of_lt_of_le hr.1 hf.nextId_le

theorem fold {load zext : Instruction} {dest source loaded : Operand} {extra rest : List Operand}
    {r : RegId} (hf : a.Preserves M f h)
    (hfolds : Folds h b k g load zext dest source loaded extra rest r) : a.Preserves M f g := by
  obtain ⟨hk, hreplaces⟩ := hfolds.replaces
  obtain ⟨hload, hzext⟩ := hfolds.mem_instructions
  have hload' : load ∈ f.instructions := hf.original load hload fun h => h.1 hfolds.generic?_load
  have hzext' : zext ∈ f.instructions := hf.original zext hzext fun h => h.2 hfolds.isZext
  have hinert : ∀ j ∈ [extendingLoad load dest loaded rest], Inert j := by
    rw [List.forall_mem_singleton]
    exact inert_extendingLoad _ _ _ _
  have hfeeds : f.Feeds load zext loaded source r := by
    refine ⟨hfolds.generic?_load, hfolds.isZext, by simp [hfolds.loadOperands], hfolds.loads,
      by simp [Instruction.operand?, hfolds.zextOperands], hfolds.reads, ?_⟩
    have htwo := hfolds.mentions_eq
    have hle := hf.mentions_le r (by omega)
    have hge := occurrences_add_le hload' hzext' hfolds.ne r
    have hpos := hfolds.occurrences_load_pos
    have hpos' := hfolds.occurrences_zext_pos
    rw [← mentions] at hge
    omega
  refine ⟨hf.source, hfolds.tidy hf.tidy, hreplaces.all hf.regular ?_, ?_, ?_,
    hf.original_of_replaces hreplaces hinert, hf.chained_of_replaces hreplaces hinert (by simp),
    fun x hx => ?_, ?_⟩
  · rw [List.forall_mem_singleton]
    refine Instruction.regular_of_other fun op hop => ?_
    cases hop
    exact .inr (.inr rfl)
  · rw [hfolds.nextId_eq]
    refine hreplaces.all hf.within ?_
    rw [List.forall_mem_singleton]
    exact hfolds.within_lt hf.within
  · rw [hfolds.nextId_eq]
    exact hf.nextId_le
  · have hle := hfolds.mentions_le_mentions x
    exact Nat.le_trans (hf.mentions_le x (by omega)) (hfolds.mentions_le (hf.tidy zext hzext) hx)
  · -- the loaded register is all that may differ
    have hwidth : source.size = loaded.size := by
      obtain ⟨after, hrest⟩ := hfolds.rest_eq
      have hchain := (hf.chained b).drop (k - 1)
      rw [hrest, List.isChain_cons_cons] at hchain
      exact hchain.1 loaded source r hfeeds
    have halike : Alike M (· ≠ r) h g := by
      refine hreplaces.alike (fun x hx => ?_) (.of_new_within hreplaces.frame ?_ fun s x s' hs => ?_)
      · obtain rfl : x = r := not_not.mp hx
        rw [hfolds.mentions_eq, hfolds.occurrences_eq]
      · rw [List.forall_mem_singleton]
        exact hfolds.within_ne
      · exact stands_extendingLoad hfolds.isLoad hfolds.isZext hfolds.loadOperands
          ⟨extra, hfolds.zextOperands⟩ hfolds.loads hfolds.reads hwidth hs
    refine hf.runs_of_alike halike fun x hx => ⟨⟨hx.1, fun hfolded => hx.2 ?_⟩, ?_⟩
    · have hle := hfolds.mentions_le_mentions x
      exact ⟨Nat.le_zero.mp (hfolded.1 ▸ hle), hfolded.2⟩
    · rintro rfl
      exact hx.2 ⟨hfolds.mentions_loaded, load, hload', zext, hzext', loaded, source, hfeeds⟩

theorem keptBy (hM : a.Models M) (f : Function) :
    Function.KeptBy a.target fun _ _ => a.Preserves M f where
  expand hf hi hlegal hexpandable hexpand := by
    rcases Arch.expand_cases hi hlegal hexpandable hexpand with hrewrites |
      ⟨-, load, dest, source, loaded, extra, rest, r, hfolds⟩
    · exact hf.rewrite hM hi hexpandable hrewrites
    · exact hf.fold hfolds
  next hf _ := hf
  nextBlock hf _ := hf

end Preserves

end Arch

/-! ## Lowered functions -/

namespace Machine

theorem Progress.Agree.refl {M : Interpretation} (keep : RegId → Prop) (p : Progress M) :
    p.Agree keep p := by
  cases p with
  | running s => exact .running (.refl _ s)
  | returned value s => exact .returned (.refl _ s)

variable {a : Arch} {M : Interpretation} {f g : Function} {i : Instruction}

theorem Instruction.Plain.within {t : Target} {next : Nat} (hi : i.Plain t next) :
    i.Within (· < next) :=
  fun o ho r hr => (hi.operands o ho).id_lt r hr

theorem Function.Measured.regular (hf : f.Measured a) (hi : i ∈ f.instructions)
    (hplain : i.Plain a.target f.nextId) : i.Regular a := by
  obtain ⟨op, hcode, -, hsuits⟩ := hplain.form
  have hop : i.generic? = some op := congrArg Opcode.generic? hcode
  refine ⟨hf.oneWidth i hi, fun hcmp o ho => ?_, fun {op' dest source value}
    hop' _ hoperands hvalue =>
    ?_, fun haddress => ?_⟩
  · cases hop.symm.trans hcmp
    exact ⟨hsuits.2 o (List.mem_of_mem_tail ho), fun ha heq => hf.compared ha i hi hcmp heq o ho⟩
  · refine ⟨?_, hf.converts i hi op' dest source value hop' hoperands hvalue⟩
    exact (hplain.operands source (by simp [hoperands])).word value hvalue
  · cases hop.symm.trans haddress
    obtain ⟨dest, name, hoperands, -, hty⟩ := hsuits
    exact ⟨dest, name, hoperands, hty, (hplain.operands dest (by simp [hoperands])).passes⟩

theorem Function.Measured.preserves (hf : f.Measured a) (hproduces : a.target.Produces f) :
    a.Preserves M f f where
  source i hi := (hproduces.plain i hi).within
  tidy := tidy_of_shaped hproduces.shaped
  regular i hi := hf.regular hi (hproduces.plain i hi)
  within i hi := (hproduces.plain i hi).within
  nextId_le := Nat.le_refl _
  original _ hi _ := hi
  chained b := by
    rw [Function.rest]
    cases hblock : f.blocks[b]? with
    | none => exact .nil
    | some block => exact hf.loaded block (List.mem_of_getElem? hblock)
  mentions_le _ _ := Nat.le_refl _
  runs s n p hp := ⟨p, hp, .refl _ p⟩

/-- **Legalization preserves meaning.**  A legalized function gets as far in any number of blocks,
from any state, as the function that lowering produced: to the same block or with the same result to
a return, with the same physical registers, memory and trace, and with the same values in all
registers of the function but those of loads that were folded away. -/
theorem Function.legalize_preserves (hM : a.Models M) (hproduces : a.target.Produces f)
    (hf : f.Measured a) (h : f.legalize a.target = .ok g) :
    f.All (·.Within (· < f.nextId)) ∧ ∀ (s : State M) n p, f.after n s = some p →
      ∃ q, g.after n s = some q ∧ p.Agree (f.Keeps g) q := by
  have hpreserves := (Arch.Preserves.keptBy hM f).legalize (hf.preserves hproduces) h
  exact ⟨hpreserves.source, hpreserves.runs⟩

end Machine

/-- A machine whose registers do not overlap, where slots and symbols lie at address zero and calls
do nothing. -/
def Arch.bare (a : Arch) : Interpretation where
  pointerBits := a.target.pointerBits
  base _ := 0
  symbol _ := 0
  Physical := RegId → BitVec 128
  readPhysical p r width :=
    some (if a = .riscv32 ∧ r = Riscv.zero then 0 else (p r).setWidth width)
  writePhysical p r v := fun x => if x = r then v.value.setWidth 128 else p x
  float _ _ _ _ := 0
  call _ _ memory p := (memory, p)

theorem Arch.models_bare (a : Arch) : a.Models a.bare where
  pointerBits := rfl
  read_write root hroot p v := by
    have hwidth : a.target.pointerBits ≤ 128 := by cases a <;> decide
    have hnonzero : ¬(a = .riscv32 ∧
        a.target.registers.withWidth root a.target.pointerBits = Riscv.zero) := by
      rintro ⟨rfl, hzero⟩
      revert root
      decide
    simp [Arch.bare, hnonzero, BitVec.setWidth_setWidth_of_le _ hwidth]
  write_write root hroot p v w := by
    funext x
    simp only [Arch.bare]
    split <;> rfl
  zero ha p width hwidth := by simp [Arch.bare, ha]

namespace Machine

/-- A machine where every register holds zero and every byte of memory has all its bits set. -/
def Function.start (a : Arch) : State a.bare where
  block := 0
  index := 0
  regs _ := some ⟨128, 0⟩
  physical _ := 0
  memory _ := 255
  trace := []

/-- The number that a run returns. -/
def Progress.result? {M : Interpretation} : Progress M → Option Nat
  | .returned value _ => value.map (·.value.toNat)
  | .running _ => none

theorem Progress.Agree.result?_eq {M : Interpretation} {keep : RegId → Prop} {p q : Progress M}
    (h : p.Agree keep q) : q.result? = p.result? := by
  cases h <;> rfl

end Machine

namespace Machine.Function

/-- A module with one function of one block. -/
def single (returnType : Ir.Ty) (parameters : List Ir.Parameter) (code : List Ir.Instruction) :
    Ir.Module where
  name := "m"
  functions := [{
    name := "f"
    returnType := returnType
    parameters := parameters
    blocks := [{ name := "entry", instructions := code }] }]

/-- The number that the first block returns. -/
def returns? (a : Arch) (f : Function) : Option Nat := (f.after 1 (start a)).bind (·.result?)

/-- What was loaded and made wider, and its remainder. -/
def loadedRemainder : Ir.Module :=
  single .i64 [⟨"p", .ptr .i32, false⟩]
    [.load 0 (.param "p" (.ptr .i32)) .i32, .unary 1 .zext (.temp 0 .i32) .i64,
      .binary 2 .mod (.temp 1 .i64) (.constant 7 .i64) .i64, .ret (some (.temp 2 .i64))]

theorem measured_folding : folding.Measured .aarch64 where
  oneWidth := by
    show ∀ i ∈ folding.instructions, i.OneWidth
    decide
  compared := by rintro ⟨⟩
  converts i hi op dest source value hop hoperands hvalue := by
    simp only [folding, instructions, List.flatMap_cons, List.flatMap_nil, List.append_nil,
      List.mem_cons, List.not_mem_nil, or_false] at hi
    rcases hi with rfl | rfl | rfl | rfl <;> cases hoperands <;> cases hvalue
  loaded := by
    simp only [folding, List.forall_mem_singleton, List.isChain_cons_cons, List.isChain_singleton,
      and_true]
    refine ⟨fun loaded source r hfeeds => ?_,
      readsAsLoaded_of_inert (.inr ⟨by rintro ⟨⟩, by rintro ⟨⟩⟩),
      readsAsLoaded_of_inert (.inr ⟨by rintro ⟨⟩, by rintro ⟨⟩⟩)⟩
    cases hfeeds.head
    cases hfeeds.operand
    rfl

theorem folding_preserved : ∃ g, folding.legalize Arch.aarch64.target = .ok g ∧
    folding.returns? .aarch64 = some 3 ∧ g.returns? .aarch64 = some 3 ∧
    ∀ (s : State Arch.aarch64.bare) n p, folding.after n s = some p →
      ∃ q, g.after n s = some q ∧ p.Agree (folding.Keeps g) q := by
  have hlower : (Lowering.lowerModule Arch.aarch64.target loadedRemainder).map (·.functions) =
      .ok [folding] := by decide +kernel
  obtain ⟨code, hcode, hfunctions⟩ := map_eq_ok.mp hlower
  have hproduces : Arch.aarch64.target.Produces folding :=
    ⟨loadedRemainder, code, hcode, folding, by simp [hfunctions], .inl rfl⟩
  have hlegalize : (folding.legalize Arch.aarch64.target).map (returns? .aarch64) = .ok (some 3) := by
    decide +kernel
  obtain ⟨g, hg, hreturns⟩ := map_eq_ok.mp hlegalize
  exact ⟨g, hg, by decide +kernel, hreturns,
    (legalize_preserves Arch.aarch64.models_bare hproduces measured_folding hg).2⟩

/-- A negative constant, made wider than constants are. -/
def widerConstant : Ir.Module :=
  single (.int 128 true) []
    [.unary 0 .zext (.constant (-1) .i64) (.int 128 true), .ret (some (.temp 0 (.int 128 true)))]

/-- A truncation of a negative constant to more bits. -/
def widerTruncation : Ir.Module :=
  single .i32 [] [.unary 0 .trunc (.constant (-1) .i8) .i32, .ret (some (.temp 0 .i32))]

/-- A zero extension of a part of what was loaded. -/
def narrowerRead : Ir.Module :=
  single .i64 [⟨"p", .ptr .i32, false⟩]
    [.load 0 (.param "p" (.ptr .i32)) .i32, .unary 1 .zext (.temp 0 .i8) .i64,
      .ret (some (.temp 1 .i64))]

/-- A compare of values without bits. -/
def emptyCompare : Ir.Module :=
  single .bool [⟨"a", .int 0 true, false⟩]
    [.compare 0 .eq (.param "a" (.int 0 true)) (.param "a" (.int 0 true)),
      .ret (some (.temp 0 .bool))]

/-- Legalization changes what a function of the module returns. -/
def Differs (a : Arch) (m : Ir.Module) : Prop :=
  ∃ code, Lowering.lowerModule a.target m = .ok code ∧ ∃ f ∈ code.functions, f.All (·.OneWidth) ∧
    ∃ g, f.legalize a.target = .ok g ∧ ∃ p, f.after 1 (start a) = some p ∧
      ¬∃ q, g.after 1 (start a) = some q ∧ p.Agree (f.Keeps g) q

instance {P : Instruction → Prop} [DecidablePred P] (f : Function) : Decidable (f.All P) :=
  inferInstanceAs (Decidable (∀ i ∈ f.instructions, P i))

theorem differs_of_returns? {a : Arch} {m : Ir.Module} {x y : Nat}
    (h : (Lowering.lowerModule a.target m).map (fun code => code.functions.map fun f =>
      (decide (f.All (·.OneWidth)), f.returns? a, (f.legalize a.target).toOption.bind (returns? a))) =
      .ok [(true, some x, some y)]) (hne : x ≠ y) : Differs a m := by
  obtain ⟨code, hcode, hfunctions⟩ := map_eq_ok.mp h
  obtain ⟨f, rest, hf, hfacts, -⟩ := List.map_eq_cons_iff.mp hfunctions
  simp only [Prod.mk.injEq, decide_eq_true_eq] at hfacts
  obtain ⟨hwidth, hx, hy⟩ := hfacts
  obtain ⟨p, hp, hresult⟩ := Option.bind_eq_some_iff.mp hx
  cases hg : f.legalize a.target with
  | error e => simp [hg, Except.toOption] at hy
  | ok g =>
    rw [hg] at hy
    have hy : g.returns? a = some y := hy
    obtain ⟨q, hq, hresult'⟩ := Option.bind_eq_some_iff.mp hy
    refine ⟨code, hcode, f, by simp [hf], hwidth, g, hg, p, hp, ?_⟩
    rintro ⟨q', hq', hagree⟩
    cases hq.symm.trans hq'
    rw [hagree.result?_eq, hresult] at hresult'
    exact hne (Option.some.inj hresult')

theorem conversions_not_preserved :
    Differs .aarch64 widerConstant ∧ Differs .aarch64 widerTruncation ∧
      Differs .aarch64 narrowerRead ∧ Differs .riscv32 emptyCompare :=
  ⟨differs_of_returns? (x := 2 ^ 64 - 1) (y := 2 ^ 128 - 1) (by decide +kernel) (by decide),
    differs_of_returns? (x := 255) (y := 2 ^ 32 - 1) (by decide +kernel) (by decide),
    differs_of_returns? (x := 255) (y := 2 ^ 32 - 1) (by decide +kernel) (by decide),
    differs_of_returns? (x := 1) (y := 0) (by decide +kernel) (by decide)⟩

end Machine.Function

end Retarget
