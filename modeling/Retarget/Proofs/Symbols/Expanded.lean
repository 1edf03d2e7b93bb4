import Retarget.Proofs.Execution.Redundancy
import Retarget.Proofs.Legality.Preservation
import Retarget.Proofs.Symbols.Sites

/-!
# Set-ups through legalization

Legalization expands nothing of a set-up but addresses of symbols, and these only on AArch64, into
a page and the offset in it (`Arch.Expanded`).  All else that it does is in front of the set-up or
behind the call: there it adds no calls, and no mentions of the ids that there were
(`around_legalize`).
-/

namespace Retarget

open Machine Target

/-! ## Lists in place of elements -/

/-- The second list has, in place of each element of the first one, a list to which `R` relates
it. -/
inductive Unfolds {α β : Type} (R : α → List β → Prop) : List α → List β → Prop
  | nil : Unfolds R [] []
  | cons {a : α} {part bs : List β} {as : List α} (hfirst : R a part) (hrest : Unfolds R as bs) :
    Unfolds R (a :: as) (part ++ bs)

namespace Unfolds

variable {α β γ : Type} {R : α → List β → Prop} {as as' : List α} {bs bs' before after : List β}

theorem append (h : Unfolds R as bs) (h' : Unfolds R as' bs') :
    Unfolds R (as ++ as') (bs ++ bs') := by
  induction h with
  | nil => exact h'
  | cons hfirst _ ih =>
    rw [List.cons_append, List.append_assoc]
    exact .cons hfirst ih

theorem of_append (h : Unfolds R (as ++ as') bs) :
    ∃ xs ys, bs = xs ++ ys ∧ Unfolds R as xs ∧ Unfolds R as' ys := by
  induction as generalizing bs with
  | nil => exact ⟨[], bs, rfl, .nil, h⟩
  | cons a as ih =>
    cases h with
    | cons hfirst hrest =>
      obtain ⟨xs, ys, rfl, hxs, hys⟩ := ih hrest
      exact ⟨_, ys, (List.append_assoc _ _ _).symm, .cons hfirst hxs, hys⟩

theorem single_iff {a : α} : Unfolds R [a] bs ↔ R a bs := by
  refine ⟨fun h => ?_, fun h => ?_⟩
  · cases h with
    | cons hfirst hrest =>
      cases hrest
      rwa [List.append_nil]
  · rw [← List.append_nil bs]
    exact .cons h .nil

theorem of_middle {a : α} (h : Unfolds R (as ++ a :: as') bs) :
    ∃ xs part ys, bs = xs ++ part ++ ys ∧ Unfolds R as xs ∧ R a part ∧ Unfolds R as' ys := by
  obtain ⟨xs, ys, rfl, hxs, hys⟩ := h.of_append
  cases hys with
  | cons hfirst hrest => exact ⟨xs, _, _, (List.append_assoc _ _ _).symm, hxs, hfirst, hrest⟩

theorem exists_of_split {b : β} (h : Unfolds R as (before ++ b :: after)) :
    ∃ first a last xs inner inner' ys, as = first ++ a :: last ∧ before = xs ++ inner ∧
      after = inner' ++ ys ∧ Unfolds R first xs ∧ R a (inner ++ b :: inner') ∧
      Unfolds R last ys := by
  generalize hbs : before ++ b :: after = bs at h
  induction h generalizing before with
  | nil => simp at hbs
  | @cons a part rest as hfirst hrest ih =>
    rcases List.append_eq_append_iff.mp hbs with ⟨xs, rfl, hsplit⟩ | ⟨xs, rfl, hsplit⟩
    · cases xs with
      | nil =>
        obtain ⟨first, a', last, xs, inner, inner', ys, rfl, hbefore, rfl, hxs, hmid, hys⟩ :=
          @ih [] hsplit
        refine ⟨a :: first, a', last, before ++ xs, inner, inner', ys, rfl, ?_, rfl,
          .cons (by simpa using hfirst) hxs, hmid, hys⟩
        rw [List.append_assoc, ← hbefore, List.append_nil]
      | cons y xs =>
        obtain ⟨rfl, rfl⟩ := List.cons.inj hsplit
        exact ⟨[], a, as, [], before, xs, rest, rfl, rfl, rfl, .nil, hfirst, hrest⟩
    · obtain ⟨first, a', last, xs', inner, inner', ys, rfl, rfl, rfl, hxs, hmid, hys⟩ :=
        ih hsplit.symm
      exact ⟨a :: first, a', last, part ++ xs', inner, inner', ys, rfl,
        (List.append_assoc _ _ _).symm, rfl, .cons hfirst hxs, hmid, hys⟩

theorem exists_of_mem {b : β} (h : Unfolds R as bs) (hb : b ∈ bs) :
    ∃ a ∈ as, ∃ part, R a part ∧ b ∈ part := by
  obtain ⟨before, after, rfl⟩ := List.append_of_mem hb
  obtain ⟨first, a, last, xs, inner, inner', ys, rfl, -, -, -, hmid, -⟩ := h.exists_of_split
  exact ⟨a, by simp, _, hmid, by simp⟩

theorem of_forall₂ {S : α → β → Prop} (h : List.Forall₂ S as bs) :
    Unfolds (fun a part => ∃ b, S a b ∧ part = [b]) as bs := by
  induction h with
  | nil => exact .nil
  | cons hfirst _ ih => exact (single_iff.mpr ⟨_, hfirst, rfl⟩).append ih

theorem refl {R : α → List α → Prop} (as : List α) (h : ∀ a ∈ as, R a [a]) : Unfolds R as as := by
  induction as with
  | nil => exact .nil
  | cons a as ih =>
    obtain ⟨hfirst, hrest⟩ := List.forall_mem_cons.mp h
    exact (single_iff.mpr hfirst).append (ih hrest)

theorem mono {R' : α → List β → Prop} (h : Unfolds R as bs)
    (hR : ∀ a part, R a part → R' a part) : Unfolds R' as bs := by
  induction h with
  | nil => exact .nil
  | cons hfirst _ ih => exact .cons (hR _ _ hfirst) ih

theorem trans {S : β → List γ → Prop} {cs : List γ} (h : Unfolds R as bs) (hs : Unfolds S bs cs) :
    Unfolds (fun a part => ∃ part', R a part' ∧ Unfolds S part' part) as cs := by
  induction h generalizing cs with
  | nil =>
    cases hs
    exact .nil
  | cons hfirst _ ih =>
    obtain ⟨xs, ys, rfl, hxs, hys⟩ := hs.of_append
    exact .cons ⟨_, hfirst, hxs⟩ (ih hys)

end Unfolds

theorem split_append_append {α : Type} {p q x w y : List α} {i : α}
    (h : p ++ i :: q = x ++ (w ++ y)) :
    (∃ r, x = p ++ i :: r ∧ q = r ++ (w ++ y)) ∨
      (∃ r r', w = r ++ i :: r' ∧ p = x ++ r ∧ q = r' ++ y) ∨
      ∃ r, p = x ++ (w ++ r) ∧ y = r ++ i :: q := by
  rcases List.append_eq_append_iff.mp h with ⟨r, rfl, hrest⟩ | ⟨r, rfl, hrest⟩
  · cases r with
    | nil =>
      cases w with
      | nil => exact .inr (.inr ⟨[], by simp, hrest.symm⟩)
      | cons j w =>
        cases hrest
        exact .inr (.inl ⟨[], w, rfl, by simp, rfl⟩)
    | cons j r =>
      cases hrest
      exact .inl ⟨r, rfl, rfl⟩
  · rcases List.append_eq_append_iff.mp hrest with ⟨z, rfl, hz⟩ | ⟨z, rfl, hz⟩
    · exact .inr (.inr ⟨z, rfl, hz⟩)
    · cases z with
      | nil => exact .inr (.inr ⟨[], by simp, hz.symm⟩)
      | cons j z =>
        cases hz
        exact .inr (.inl ⟨r, z, rfl, rfl, rfl⟩)

/-! ## Expanded code -/

open Machine Target

namespace Machine

/-- Operations that are legal as they are, but for the address of a symbol. -/
def GenericOp.endures : GenericOp → Bool
  | mov | movf | load | stackAddress | globalAddress | call => true
  | _ => false

theorem GenericOp.of_endures {op : GenericOp} (h : op.endures) :
    op.isThreeAddress = false ∧ op.isWidthConversion = false := by
  cases op <;> first | exact ⟨rfl, rfl⟩ | cases h

/-- Legalization expands the instruction only to take the address of a symbol. -/
def Instruction.Endures (i : Instruction) : Prop :=
  ∀ op, i.generic? = some op →
    op.endures ∨ op = .add ∧ ∀ o ∈ i.operands, o.isImmediate = false

end Machine

/-- The code may be what the instruction is expanded to. -/
inductive Arch.Expanded (a : Arch) (i : Instruction) : List Instruction → Prop
  | same : a.Expanded i [i]
  | address {dest source : Operand} {rest : List Operand} {name : String} (ha : a = .aarch64)
      (hop : i.generic? = some .globalAddress) (hoperands : i.operands = dest :: source :: rest)
      (hname : source.symbol? = some name) :
      a.Expanded i [(AArch64.Op.adrp.on [dest, .global name source.ty]).markExpanded,
        (Instruction.generic .add
          [dest, dest, .global (":lo12:" ++ name) source.ty]).markExpanded]

variable {a : Arch} {f f' g : Function} {b k n : Nat} {i : Instruction} {next used : Nat}
  {old new before code : List Instruction} {callee : String}

/-- Of what endures, only the address of a symbol is rewritten. -/
theorem Target.Rewrite.expanded (h : Rewrite a next i used new) (hi : i.Endures) :
    i.generic? = some .globalAddress ∧ a.Expanded i new := by
  cases h with
  | address ha hop hoperands hsymbol => exact ⟨hop, .address ha hop hoperands hsymbol⟩
  | @materialize op n imm hop huse hn himm =>
    rcases hi op hop with hendures | ⟨-, hoperands⟩
    · rcases huse with rfl | ⟨hthree | rfl, -⟩
      · cases hendures
      · cases hthree.symm.trans (GenericOp.of_endures hendures).1
      · cases hendures
    · cases himm.symm.trans (hoperands imm (List.mem_of_getElem? hn))
  | @flip op flipped imm value negated ha hop hflipped hfirst hn hvalue hnegated hfits =>
    rcases hi op hop with hendures | ⟨-, hoperands⟩
    · rcases hflipped with ⟨rfl, -⟩ | ⟨rfl, -⟩ <;> cases hendures
    · exact nomatch (Operand.isImmediate_iff.mpr ⟨value, hvalue⟩).symm.trans
        (hoperands imm (List.mem_of_getElem? hn))
  | @convert op dest source value folded hop hconversion =>
    rcases hi op hop with hendures | ⟨rfl, -⟩
    · cases hconversion.symm.trans (GenericOp.of_endures hendures).2
    · cases hconversion
  | @remainder op division dest lhs rhs ha hop hdivision =>
    rcases hdivision with ⟨rfl, -⟩ | ⟨rfl, -⟩ <;> rcases hi _ hop with hendures | ⟨h, -⟩ <;>
      first | cases hendures | cases h
  | swap ha hop | notLess ha hop | equal ha hop | different ha hop =>
    rcases hi .cmp hop with hendures | ⟨h, -⟩
    · cases hendures
    · cases h

theorem Machine.Instruction.endures_of_calls (h : a.calls i) :
    i.Endures ∧ i.generic? ≠ some .globalAddress := by
  refine ⟨fun op hop => .inl ?_, fun hop => ?_⟩
  · rw [calls_eq hop] at h
    cases op <;> first | rfl | cases h
  · rw [calls_eq hop] at h
    cases h

theorem Target.Rewrite.not_calls (h : Rewrite a next i used new) : a.calls i = false := by
  by_contra hcalls
  obtain ⟨hendures, hop⟩ := Instruction.endures_of_calls (eq_true_of_ne_false hcalls)
  exact hop (h.expanded hendures).1

theorem Target.Rewrite.countP_calls (h : Rewrite a next i used new) :
    new.countP a.calls = [i].countP a.calls := by
  have hi : i.Covered a a.target.convention.calleeSaved false :=
    ⟨fun _ _ _ _ hsaved => hsaved, fun hcalls => by simp [h.not_calls] at hcalls⟩
  have hnew : ∀ j ∈ new, a.calls j = false := fun j hj => by
    simpa using (h.covered hi j hj).caller
  rw [countP_eq_zero_of_forall hnew, List.countP_singleton, h.not_calls]
  rfl

theorem Machine.Instruction.Fills.endures {fill : Fill} (h : i.Fills fill) : i.Endures := by
  obtain ⟨hop, -, -, hs⟩ := h
  intro op' hop'
  cases hop.symm.trans hop'
  cases hs <;> exact .inl rfl

theorem Arch.Expanded.endures {fill : Fill} (h : a.Expanded i new) (hi : i.Fills fill) :
    ∀ j ∈ new, j.Endures := by
  cases h with
  | same => exact List.forall_mem_singleton.mpr hi.endures
  | @address dest source rest name ha hop hoperands hname =>
    obtain ⟨-, hoperands', hd, -⟩ := hi
    cases hoperands.symm.trans hoperands'
    have hdest : dest.isImmediate = false := by
      obtain ⟨kind, ty, regClass⟩ := dest
      cases kind <;> first | rfl | cases hd
    refine List.forall_mem_cons.mpr ⟨nofun, List.forall_mem_singleton.mpr ?_⟩
    intro op hop
    cases hop
    exact .inr ⟨rfl, List.forall_mem_cons.mpr ⟨hdest, List.forall_mem_cons.mpr ⟨hdest,
      List.forall_mem_singleton.mpr rfl⟩⟩⟩

theorem Machine.Instruction.isReturn_eq_of_def? {d : Operand} (h : i.def? = some d) :
    i.isReturn = false := by
  have heffect := isEffect_eq_false_of_def? h
  simp only [isEffect, Bool.or_eq_false_iff] at heffect
  exact heffect.1.1.2

/-- The instruction moves or loads something into a register, or takes an address into it. -/
structure Machine.Instruction.Sets (i : Instruction) (d : Operand) : Prop where
  fills : ∃ fill, i.Fills fill
  defines : i.def? = some d

namespace Machine.Instruction.Sets

variable {d : Operand} {id : RegId}

theorem exists_operands (hi : i.Sets d) : d.isRegLike ∧ ∃ s, i.operands = [d, s] := by
  obtain ⟨fill, hop, hoperands, hd, -⟩ := hi.fills
  have hfirst := operands_of_def? hi.defines
  rw [hoperands] at hfirst
  obtain ⟨rfl, -⟩ := List.cons.inj hfirst
  exact ⟨hd, _, hoperands⟩

theorem not_calls (hi : i.Sets d) : a.calls i = false := by
  obtain ⟨fill, hop, -, -, hs⟩ := hi.fills
  rw [calls_eq hop]
  cases hs <;> rfl

end Machine.Instruction.Sets

namespace Arch.Expanded

variable {d : Operand} {id : RegId} {part : List Instruction}

theorem sets (h : a.Expanded i part) (hi : i.Sets d) :
    ∀ j ∈ part, j.def? = some d ∧ a.calls j = false := by
  cases h with
  | same => exact List.forall_mem_singleton.mpr ⟨hi.defines, hi.not_calls⟩
  | address ha hop hoperands hname =>
    subst ha
    rw [Instruction.operands_of_def? hi.defines] at hoperands
    obtain ⟨rfl, -⟩ := List.cons.inj hoperands
    exact List.forall_mem_cons.mpr ⟨⟨rfl, rfl⟩, List.forall_mem_singleton.mpr ⟨rfl, rfl⟩⟩

theorem occurs_iff (h : a.Expanded i part) (hi : i.Sets d) : Occurs part id ↔ id ∈ i.ids := by
  cases h with
  | same => simp [Occurs]
  | @address dest source rest name ha hop hoperands hname =>
    obtain ⟨-, s, hpair⟩ := hi.exists_operands
    rw [hoperands] at hpair
    obtain ⟨rfl, hrest⟩ := List.cons.inj hpair
    obtain ⟨rfl, rfl⟩ := List.cons.inj hrest
    have hsource : source.unallocated? = none := by
      obtain ⟨kind, ty, regClass⟩ := source
      cases kind <;> first | rfl | cases hname
    have hids : ∀ (j : Instruction) os, j.operands = dest :: os →
        (∀ o ∈ os, o = dest ∨ o.unallocated? = none) →
          (id ∈ j.ids ↔ dest.unallocated? = some id) := by
      intro j os hj hos
      rw [Instruction.ids, hj, List.mem_filterMap]
      constructor
      · rintro ⟨o, ho, hid⟩
        rcases List.mem_cons.mp ho with rfl | ho
        · exact hid
        rcases hos o ho with rfl | hnone
        · exact hid
        · cases hnone.symm.trans hid
      · exact fun hid => ⟨dest, List.mem_cons_self, hid⟩
    rw [hids i _ hoperands (by simp [hsource])]
    simp only [Occurs, List.exists_mem_cons_iff, List.not_mem_nil, false_and, exists_false, or_false]
    rw [hids _ _ rfl (by simp; exact .inr rfl), hids _ _ rfl (by simp; exact .inr rfl), or_self]

theorem exists_cons (h : a.Expanded i part) : ∃ first rest, part = first :: rest := by
  cases h <;> exact ⟨_, _, rfl⟩

/-- The first instruction of the code that takes an address starts with the register where it goes,
as one for an integer. -/
theorem exists_first (h : a.Expanded i part) (hi : i.Sets d) (hop : i.generic? = some .globalAddress)
    (hload : i.isLoad = false) (hfloat : d.ty.isFloat = false) :
    ∃ first rest os, part = first :: rest ∧ first.isLoad = false ∧ first.operands = d :: os ∧
      first.isFloatPosition 0 d = false := by
  have hoperands := Instruction.operands_of_def? hi.defines
  cases h with
  | same =>
    refine ⟨i, [], _, rfl, hload, hoperands, ?_⟩
    rw [Instruction.isFloatPosition, hop, hfloat]
    rfl
  | address ha hop hoperands' hname =>
    rw [hoperands'] at hoperands
    obtain ⟨rfl, -⟩ := List.cons.inj hoperands
    refine ⟨_, _, _, rfl, rfl, rfl, ?_⟩
    rw [Instruction.isFloatPosition, hfloat]
    rfl

end Arch.Expanded

theorem Unfolds.occurs_iff {id : RegId} (h : Unfolds a.Expanded old new)
    (hold : ∀ i ∈ old, ∃ d, i.Sets d) : Occurs new id ↔ Occurs old id := by
  induction h with
  | nil => rfl
  | @cons i part new old hfirst _ ih =>
    obtain ⟨⟨d, hi⟩, hrest⟩ := List.forall_mem_cons.mp hold
    rw [occurs_append, hfirst.occurs_iff hi, ih hrest, Occurs, Occurs, List.exists_mem_cons_iff]

/-- The instruction calls a function. -/
structure Machine.Instruction.Calls (a : Arch) (callee : String) (i : Instruction) : Prop where
  calls : a.calls i
  operands : i.operands.map (·.kind) = [.function callee]
  isCall : i.isCall
  goesOn : i.isReturn = false

namespace Machine.Function

/-! ## Calls of a block -/

/-- Behind `before`, in which there are `n` calls, block `k` has the code and then a call. -/
structure CallsAfter (a : Arch) (f : Function) (k n : Nat) (callee : String)
    (before code : List Instruction) : Prop where
  split : ∃ block call behind, f.blocks[k]? = some block ∧
    block.instructions = before ++ (code ++ call :: behind) ∧ call.Calls a callee
  count : before.countP a.calls = n

/-- The code in front of a place in block `k`. -/
def earlier (f : Function) (k : Nat) (before : List Instruction) : List Instruction :=
  (f.blocks.take k).flatMap (·.instructions) ++ before

theorem CallsAfter.exists_call (h : f.CallsAfter a k n callee before code) :
    ∃ call later, call.Calls a callee ∧
      f.instructions = f.earlier k before ++ (code ++ call :: later) := by
  obtain ⟨block, call, behind, hblock, hcode, hcall⟩ := h.split
  refine ⟨call, behind ++ (f.blocks.drop (k + 1)).flatMap (·.instructions), hcall, ?_⟩
  rw [instructions_eq_of_getElem? hblock, hcode, earlier]
  simp

theorem Replaces.occurs_take {m : Nat} {id : RegId} (h : f.Replaces b m old new g)
    (hnew : Occurs new id → Occurs old id)
    (hocc : Occurs ((g.blocks.take k).flatMap (·.instructions)) id) :
    Occurs ((f.blocks.take k).flatMap (·.instructions)) id := by
  obtain ⟨block, pre, post, hblock, hcode, -, hg⟩ := h.code
  by_cases hb : b < k
  · have hmem : block ∈ f.blocks.take k :=
      List.mem_of_getElem? ((List.getElem?_take_of_lt hb).trans hblock)
    obtain ⟨i, hi, hid⟩ := hocc
    obtain ⟨block', hblock', hi⟩ := List.mem_flatMap.mp hi
    rw [hg, List.take_set] at hblock'
    rcases List.mem_or_eq_of_mem_set hblock' with hold | rfl
    · exact ⟨i, List.mem_flatMap.mpr ⟨block', hold, hi⟩, hid⟩
    · have hocc : Occurs (pre ++ (new ++ post)) id := ⟨i, hi, hid⟩
      have hall : Occurs (pre ++ (old ++ post)) id := by
        simp only [occurs_append] at hocc ⊢
        exact hocc.imp_right fun h => h.imp_left hnew
      obtain ⟨j, hj, hid⟩ := hall
      exact ⟨j, List.mem_flatMap.mpr ⟨block, hmem, hcode ▸ hj⟩, hid⟩
  · rwa [hg, List.take_set_of_le (Nat.le_of_not_lt hb)] at hocc

/-- What legalization has made of a function so far: block `k` still has a call behind `n` others,
and code that expands the one that was in front of it.  What is in front of that mentions no id that
nothing there mentioned before. -/
structure Around (a : Arch) (f g : Function) (k n : Nat) (callee : String)
    (before code : List Instruction) : Prop where
  nextId_le : f.nextId ≤ g.nextId
  split : ∃ before' code', g.CallsAfter a k n callee before' code' ∧ Unfolds a.Expanded code code' ∧
    ∀ id < f.nextId, Occurs (g.earlier k before') id → Occurs (f.earlier k before) id

/-- An expansion that adds no calls and mentions nothing else leaves a call where it is, if it is in
front of the code for it, behind it, or expands this code. -/
theorem Around.replace {m : Nat} (h : f.Around a f' k n callee before code)
    (hr : f'.Replaces b m old new g) (hnext : f'.nextId ≤ g.nextId)
    (hcount : new.countP a.calls = old.countP a.calls)
    (hnew : ∀ id < f'.nextId, Occurs new id → Occurs old id)
    (hstands : ∀ pre post before' code' call behind,
      pre ++ (old ++ post) = before' ++ (code' ++ call :: behind) → a.calls call →
      Unfolds a.Expanded code code' →
      (∃ rest, before' = pre ++ (old ++ rest) ∧ post = rest ++ (code' ++ call :: behind)) ∨
        (∃ first rest, pre = before' ++ first ∧ post = rest ++ call :: behind ∧
          Unfolds a.Expanded code (first ++ (new ++ rest))) ∨
        ∃ first, pre = before' ++ (code' ++ call :: first)) :
    f.Around a g k n callee before code := by
  obtain ⟨before', code', ⟨⟨block, call, behind, hblock, hsplit, hcall⟩, hn⟩, hcode, hold⟩ := h.split
  have htake : ∀ id < f.nextId, Occurs ((g.blocks.take k).flatMap (·.instructions)) id →
      Occurs ((f'.blocks.take k).flatMap (·.instructions)) id :=
    fun id hid => hr.occurs_take (hnew id (Nat.lt_of_lt_of_le hid h.nextId_le))
  have hsame : ∀ id < f.nextId, Occurs (g.earlier k before') id → Occurs (f.earlier k before) id := by
    refine fun id hid hocc => hold id hid ?_
    simp only [earlier, occurs_append] at hocc ⊢
    exact hocc.imp_left (htake id hid)
  refine ⟨Nat.le_trans h.nextId_le hnext, ?_⟩
  obtain ⟨block', pre, post, hblock', hcode', -, hg⟩ := hr.code
  by_cases hb : b = k
  · subst hb
    cases hblock.symm.trans hblock'
    have hget : g.blocks[b]? = some { block with instructions := pre ++ (new ++ post) } := by
      rw [hg, List.getElem?_set_self (List.getElem?_eq_some_iff.mp hblock).1]
    rcases hstands pre post before' code' call behind (hcode'.symm.trans hsplit) hcall.calls
        hcode with
      ⟨rest, rfl, rfl⟩ | ⟨first, rest, rfl, rfl, hinside⟩ | ⟨first, rfl⟩
    · refine ⟨pre ++ (new ++ rest), code', ⟨⟨_, call, behind, hget, by simp, hcall⟩, ?_⟩,
        hcode, fun id hid hocc => hold id hid ?_⟩
      · simp only [List.countP_append] at hn ⊢
        rw [hcount]
        exact hn
      · simp only [earlier, occurs_append] at hocc ⊢
        have hnew := hnew id (Nat.lt_of_lt_of_le hid h.nextId_le)
        exact hocc.imp (htake id hid) fun h => h.imp_right fun h => h.imp_left hnew
    · exact ⟨before', _, ⟨⟨_, call, behind, hget, by simp, hcall⟩, hn⟩, hinside, hsame⟩
    · exact ⟨before', code', ⟨⟨_, call, first ++ (new ++ post), hget, by simp, hcall⟩, hn⟩,
        hcode, hsame⟩
  · have hget : g.blocks[k]? = some block := by
      rw [hg, List.getElem?_set_ne hb]
      exact hblock
    exact ⟨before', code', ⟨⟨block, call, behind, hget, hsplit, hcall⟩, hn⟩, hcode, hsame⟩

section Around

variable (h : f.Around a f' k n callee before code) (hcode : ∀ i ∈ code, ∃ fill, i.Fills fill)
include h hcode

theorem Around.rewrite {m : Nat} (hrewrites : Rewrites a f' b m i g) :
    f.Around a g k n callee before code := by
  obtain ⟨used, new, hrewrite, hreplaces, hnext⟩ := hrewrites
  refine h.replace hreplaces (by omega) hrewrite.countP_calls ?_ ?_
  · rintro id hid ⟨j, hj, hmention⟩
    obtain ⟨o, ho, hr⟩ := List.mem_filterMap.mp hmention
    rcases hrewrite.mentioned hj ho hr with ⟨o', ho', hr'⟩ | ⟨n, -, rfl⟩
    · exact ⟨i, List.mem_singleton_self i, List.mem_filterMap.mpr ⟨o', ho', hr'⟩⟩
    · omega
  · intro pre post before' code' call behind heq hcall hunfolds
    rcases split_append_append heq with ⟨r, rfl, rfl⟩ | ⟨r, r', rfl, rfl, rfl⟩ | ⟨r, rfl, hr⟩
    · exact .inl ⟨r, rfl, rfl⟩
    · obtain ⟨first, w, last, xs, inner, inner', ys, rfl, rfl, rfl, hxs, hmid, hys⟩ :=
        hunfolds.exists_of_split
      obtain ⟨fill, hfill⟩ := hcode w (by simp)
      have hendures := hmid.endures hfill i (by simp)
      obtain ⟨hop, hexpanded⟩ := hrewrite.expanded hendures
      refine .inr (.inl ⟨xs ++ inner, inner' ++ ys, rfl, rfl, ?_⟩)
      generalize hpart : inner ++ i :: inner' = part at hmid
      cases hmid with
      | same =>
        obtain ⟨rfl, hi, rfl⟩ : inner = [] ∧ i = w ∧ inner' = [] := by
          cases inner with
          | nil => simpa using hpart
          | cons j inner => simp at hpart
        subst hi
        simpa using hxs.append (.cons hexpanded hys)
      | address =>
        have hmem : i ∈ inner ++ i :: inner' := by simp
        rw [hpart] at hmem
        simp only [List.mem_cons, List.not_mem_nil, or_false] at hmem
        rcases hmem with rfl | rfl <;> cases hop
    · cases r with
      | nil =>
        cases hr
        cases hcall.symm.trans hrewrite.not_calls
      | cons j r =>
        cases hr
        exact .inr (.inr ⟨r, rfl⟩)

theorem Around.fold {m : Nat} {load zext : Instruction} {dest source loaded : Operand}
    {extra rest : List Operand} {r : RegId}
    (hfolds : Folds f' b m g load zext dest source loaded extra rest r) :
    f.Around a g k n callee before code := by
  have hload : a.calls load = false := by rw [Arch.calls, hfolds.isLoad]; rfl
  have hzext : a.calls zext = false := Instruction.calls_eq hfolds.isZext
  refine h.replace hfolds.replaces.2 (Nat.le_of_eq hfolds.nextId_eq.symm) ?_ ?_ ?_
  · simp only [List.countP_cons, List.countP_nil, hload, hzext]
    rfl
  · rintro id - ⟨j, hj, hmention⟩
    cases List.mem_singleton.mp hj
    obtain ⟨o, ho, hr⟩ := List.mem_filterMap.mp hmention
    rw [extendingLoad, Instruction.operands_markExpanded, Instruction.operands_withOperands] at ho
    rcases List.mem_cons.mp ho with rfl | ho
    · exact ⟨zext, by simp, List.mem_filterMap.mpr ⟨_, by simp [hfolds.zextOperands], hr⟩⟩
    · rcases List.mem_cons.mp ho with rfl | ho
      · cases hr
      · exact ⟨load, by simp, List.mem_filterMap.mpr ⟨_, by simp [hfolds.loadOperands, ho], hr⟩⟩
  · intro pre post before' code' call behind heq hcall hunfolds
    replace heq : (pre ++ [load]) ++ zext :: post = before' ++ (code' ++ call :: behind) := by
      rw [← heq]
      simp
    rcases split_append_append heq with ⟨r, rfl, rfl⟩ | ⟨r, r', rfl, -, -⟩ | ⟨r, hpre, hr⟩
    · exact .inl ⟨r, by simp, rfl⟩
    · -- no such code is a zero extension
      obtain ⟨w, hw, part, hpart, hmem⟩ := hunfolds.exists_of_mem (b := zext) (by simp)
      obtain ⟨fill, hfill⟩ := hcode w hw
      rcases hpart.endures hfill zext hmem _ hfolds.isZext with hendures | ⟨hop, -⟩
      · cases hendures
      · cases hop
    · cases r with
      | nil =>
        cases hr
        cases hcall.symm.trans hzext
      | cons j r =>
        obtain ⟨rfl, -⟩ := List.cons.inj hr
        rcases List.eq_nil_or_concat r with rfl | ⟨r, last, rfl⟩
        · have hlast := congrArg List.getLast? hpre
          simp only [List.getLast?_append, List.getLast?_singleton, Option.some_or,
            List.getLast?_append] at hlast
          cases hlast
          cases hcall.symm.trans hload
        · refine .inr (.inr ⟨r, ?_⟩)
          have hinit : pre ++ [load] = before' ++ (code' ++ call :: r) ++ [last] := by
            simpa using hpre
          exact List.append_inj_left' hinit rfl

end Around

/-- **Legalization leaves a call and the code in front of it where they are**, but that it expands
addresses of symbols. -/
theorem around_legalize (h : f.CallsAfter a k n callee before code)
    (hcode : ∀ i ∈ code, ∃ fill, i.Fills fill) (hlegalize : f.legalize a.target = .ok g) :
    f.Around a g k n callee before code := by
  refine KeptBy.legalize (R := fun _ _ g => f.Around a g k n callee before code)
    ⟨fun hf hi hlegal hexpandable hexpand => ?_, fun hf _ => hf, fun hf _ => hf⟩
    ⟨Nat.le_refl _, before, code, h, .refl code fun i _ => .same, fun _ _ hocc => hocc⟩ hlegalize
  rcases Arch.expand_cases hi hlegal hexpandable hexpand with hrewrites |
    ⟨-, load, dest, source, loaded, extra, rest, r, hfolds⟩
  · exact hf.rewrite hcode hrewrites
  · exact hf.fold hcode hfolds

end Machine.Function

end Retarget
