import Retarget.Proofs.Registers
import Retarget.Proofs.Selection.Forms
import Retarget.Proofs.Selection.Walk

/-!
# Fused compares

On AArch64 a compare whose only reader is the branch behind it leaves its result in the flags.  The
readers are looked for in code that is selected in part, and a selected instruction shows fewer
reads than it had: a return shows none, and a compare, and a branch on the flags, do not show their
first one.  So a compare is fused under a reader exactly if that reader was selected before and
shows the read no longer (`fused_iff`).
-/

namespace Retarget

open Machine Target

/-! ## Reads -/

namespace Machine

def Operand.roots (rs : Registers) (os : List Operand) : List RegId :=
  os.filterMap fun o => o.reg?.map rs.root

namespace Instruction

variable {rs : Registers} {i j : Instruction} {d : RegId}

def readRoots (rs : Registers) (i : Instruction) : List RegId := Operand.roots rs i.uses

/-- The instruction reads a register that shares storage with `d`. -/
def Reads (rs : Registers) (i : Instruction) (d : RegId) : Prop :=
  ∃ o ∈ i.uses, ∃ r, o.reg? = some r ∧ rs.overlaps r d

theorem reads_iff : i.Reads rs d ↔ rs.root d ∈ i.readRoots rs := by
  simp [Reads, readRoots, Operand.roots, Registers.overlaps]

/-- Only the first operand that the instruction reads shares storage with `d`. -/
def ReadsFirstOnly (rs : Registers) (i : Instruction) (d : RegId) : Prop :=
  i.Reads rs d ∧ rs.root d ∉ Operand.roots rs i.uses.tail

instance : Decidable (i.Reads rs d) := decidable_of_iff _ reads_iff.symm

instance : Decidable (i.ReadsFirstOnly rs d) := inferInstanceAs (Decidable (_ ∧ _))

/-- Operands that name the same registers in the places that count. -/
structure SameRegisters (rs : Registers) (os os' : List Operand) : Prop where
  all : Operand.roots rs os' = Operand.roots rs os
  tail : Operand.roots rs os'.tail = Operand.roots rs os.tail
  isEmpty : os'.isEmpty = os.isEmpty

theorem SameRegisters.readRoots (h : SameRegisters rs i.operands j.operands)
    (hflags : j.flags = i.flags) : j.readRoots rs = i.readRoots rs := by
  have hdef : j.hasDef = i.hasDef := by
    simp only [hasDef, isEffect, isStore, isReturn, isJump, isCall, hflags, h.isEmpty]
  rw [Instruction.readRoots, Instruction.readRoots, uses, uses, hdef]
  split
  · exact h.tail
  · exact h.all

theorem SameRegisters.refl (os : List Operand) : SameRegisters rs os os := ⟨rfl, rfl, rfl⟩

theorem SameRegisters.map {g : Operand → Operand} (hg : ∀ o, (g o).reg? = o.reg?)
    (os : List Operand) : SameRegisters rs os (os.map g) := by
  refine ⟨?_, ?_, List.isEmpty_map⟩ <;>
    simp [Operand.roots, ← List.map_tail, List.filterMap_map, hg]

theorem SameRegisters.modify_zero {g : Operand → Operand} {os : List Operand}
    (hg : ∀ o, os[0]? = some o → (g o).reg?.map rs.root = o.reg?.map rs.root) :
    SameRegisters rs os (os.modify 0 g) := by
  cases os with
  | nil => exact .refl _
  | cons o os =>
    refine ⟨?_, rfl, rfl⟩
    rw [List.modify_zero_cons, Operand.roots, Operand.roots, List.filterMap_cons,
      List.filterMap_cons, hg o rfl]

theorem roots_cons_immediate {o : Operand} (ho : o.reg? = none) (os : List Operand) :
    Operand.roots rs (o :: os) = Operand.roots rs os := by
  rw [Operand.roots, List.filterMap_cons, ho]
  rfl

theorem SameRegisters.erase_one {os : List Operand} (h : ∀ o, os[1]? = some o → o.reg? = none) :
    SameRegisters rs os (os.eraseIdx 1) := by
  match os with
  | [] => exact .refl _
  | [_] => exact .refl _
  | dest :: o :: os =>
    have ho := h o rfl
    refine ⟨?_, (roots_cons_immediate ho os).symm, rfl⟩
    show Operand.roots rs ([dest] ++ os) = Operand.roots rs ([dest] ++ o :: os)
    rw [Operand.roots, Operand.roots, List.filterMap_append, List.filterMap_append]
    have hroots : Operand.roots rs (o :: os) = Operand.roots rs os := roots_cons_immediate ho os
    exact congrArg _ hroots.symm

theorem SameRegisters.set_one {new : Operand} {os : List Operand}
    (h : ∀ o, os[1]? = some o → o.reg? = none) (hnew : new.reg? = none) :
    SameRegisters rs os (os.set 1 new) := by
  match os with
  | [] => exact .refl _
  | [_] => exact .refl _
  | dest :: o :: os =>
    have hsame : Operand.roots rs (new :: os) = Operand.roots rs (o :: os) :=
      (roots_cons_immediate hnew os).trans (roots_cons_immediate (h o rfl) os).symm
    refine ⟨?_, hsame, rfl⟩
    show Operand.roots rs ([dest] ++ new :: os) = Operand.roots rs ([dest] ++ o :: os)
    rw [Operand.roots, Operand.roots, List.filterMap_append, List.filterMap_append]
    exact congrArg _ hsame

theorem SameRegisters.append {new : Operand} {os : List Operand} (hos : os ≠ [])
    (hnew : new.reg? = none) : SameRegisters rs os (os ++ [new]) := by
  have happend : ∀ os, Operand.roots rs (os ++ [new]) = Operand.roots rs os := by
    intro os
    simp [Operand.roots, List.filterMap_append, hnew]
  cases os with
  | nil => exact absurd rfl hos
  | cons o os => exact ⟨happend (o :: os), happend os, rfl⟩

theorem uses_eraseOperand_zero (i : Instruction) : (i.eraseOperand 0).uses = i.uses.tail := by
  have heffect : (i.eraseOperand 0).isEffect = i.isEffect := rfl
  rw [uses, uses, hasDef, hasDef, heffect, operands_eraseOperand]
  cases i.operands with
  | nil => cases i.isEffect <;> rfl
  | cons o os => cases os <;> cases i.isEffect <;> rfl

end Instruction

end Machine

/-! ## What selection shows -/

namespace Target

variable {rs : Registers} {site : Site} {r : Replacement}

def Replacement.readRoots (rs : Registers) (r : Replacement) : List RegId :=
  (r.first :: r.rest).flatMap (·.readRoots rs)

theorem Replacement.readRoots_single (i : Instruction) :
    Replacement.readRoots rs ⟨i, []⟩ = i.readRoots rs := List.append_nil _

theorem Replacement.readRoots_eq {i : Instruction} {rest : List Instruction}
    (hrest : ∀ j ∈ rest, j.readRoots rs = []) :
    Replacement.readRoots rs ⟨i, rest⟩ = i.readRoots rs := by
  rw [readRoots, List.flatMap_cons, List.flatMap_eq_nil_iff.mpr hrest, List.append_nil]

theorem reg?_of_isImmediate {o : Operand} (h : o.isImmediate) : o.reg? = none := by
  obtain ⟨kind, ty, regClass⟩ := o
  cases kind <;> first | rfl | cases h

theorem reg?_of_immediate? {o : Operand} {v : Int} (h : o.immediate? = some v) :
    o.reg? = none :=
  reg?_of_isImmediate (Operand.isImmediate_iff.mpr ⟨v, h⟩)

namespace AArch64

theorem readRoots_widenRegisters (i : Instruction) :
    (widenRegisters i).readRoots rs = i.readRoots rs := by
  refine (Instruction.SameRegisters.map (fun o => ?_) i.operands).readRoots rfl
  split <;> rfl

theorem readRoots_moveField (dest : Operand) (value : Int) (shift : Nat) :
    ∀ j ∈ moveField dest value shift, j.readRoots rs = [] := by
  unfold moveField
  extract_lets field
  split
  · simp
  · rw [List.forall_mem_singleton]
    rfl

theorem readRoots_setOpcode (i : Instruction) (op : Op) :
    Replacement.readRoots rs ⟨i.setOpcode op.opcode, []⟩ = i.readRoots rs :=
  (Replacement.readRoots_single _).trans ((Instruction.SameRegisters.refl _).readRoots rfl)

/-- A compare that has no destination any more does not show its first read. -/
theorem readRoots_compare (i : Instruction) (op : Op) :
    ((i.setOpcode op.opcode).eraseOperand 0).readRoots rs = Operand.roots rs i.uses.tail := by
  rw [Instruction.readRoots, Instruction.uses_eraseOperand_zero]
  rfl

theorem setsCondition_setOn {dest : Operand} {d : RegId} (hd : dest.reg? = some d)
    (relation : Relation) :
    setsCondition (((Op.setOn relation).on [dest]).withRelation relation) (some d) := by
  have hop : (Relation.all.any fun r => (Op.setOn relation).opcode == (Op.setOn r).opcode) =
      true := by
    cases relation <;> decide
  have hopcode : (((Op.setOn relation).on [dest]).withRelation relation).opcode =
      (Op.setOn relation).opcode := rfl
  have hreg : ((((Op.setOn relation).on [dest]).withRelation relation).operand? 0).bind
      (·.reg?) = some d := hd
  rw [setsCondition, hreg, hopcode, hop]
  simp [Instruction.withRelation]

/-- What a branch turns into shows all its reads, or all but the first if it is taken on the
flags. -/
theorem readRoots_selectBranch (h : selectBranch site = .ok r) :
    r.readRoots rs = site.instruction.readRoots rs ∨
      r.readRoots rs = Operand.roots rs site.instruction.uses.tail ∧
        r.first.opcode ≠ Op.cbnz.opcode ∧ ∀ j ∈ r.rest, j.opcode ≠ Op.cbnz.opcode := by
  unfold selectBranch at h
  extract_lets instr cond relation falseTarget taken branch at h
  cases h
  have hfalse : ∀ j ∈ falseTarget.toList.map fun label =>
      (Op.b.on [label]).addFlags { jump := true }, j.opcode ≠ Op.cbnz.opcode := by
    intro j hj
    obtain ⟨label, -, rfl⟩ := List.mem_map.mp hj
    show Op.b.opcode ≠ Op.cbnz.opcode
    decide
  -- the jump to the false target reads what the branch does not read any more
  have huses : instr.uses = taken.uses ++ falseTarget.toList ∧
      instr.uses.tail = taken.uses.tail ++ falseTarget.toList := by
    simp only [taken, falseTarget]
    split
    · next hthree =>
      have hlength := of_decide_eq_true hthree
      have heffect : (instr.eraseOperand 2).isEffect = instr.isEffect := rfl
      rw [Instruction.uses, Instruction.uses, Instruction.hasDef, Instruction.hasDef, heffect,
        Instruction.operands_eraseOperand, Instruction.operand?]
      obtain ⟨c, l, r, hos⟩ := List.length_eq_three.mp hlength
      rw [hos]
      cases instr.isEffect <;> exact ⟨rfl, rfl⟩
    · exact ⟨(List.append_nil _).symm, (List.append_nil _).symm⟩
  have hjump : (falseTarget.toList.map fun label =>
      (Op.b.on [label]).addFlags { jump := true }).flatMap (·.readRoots rs) =
        Operand.roots rs falseTarget.toList := by
    cases falseTarget with
    | none => rfl
    | some label => exact List.append_nil _
  have hroots : ∀ i : Instruction, Replacement.readRoots rs ⟨i, falseTarget.toList.map fun label =>
      (Op.b.on [label]).addFlags { jump := true }⟩ =
        Operand.roots rs (i.uses ++ falseTarget.toList) := by
    intro i
    rw [Replacement.readRoots, List.flatMap_cons, hjump]
    exact (List.filterMap_append ..).symm
  show Replacement.readRoots rs ⟨branch, _⟩ = _ ∨ _
  cases hrelation : relation with
  | none =>
    left
    have hbranch : branch = taken.setOpcode Op.cbnz.opcode := by simp only [branch, hrelation]
    rw [hbranch, hroots, Instruction.readRoots]
    exact congrArg _ huses.1.symm
  | some relation =>
    right
    have hbranch : branch = (taken.setOpcode (Op.branchOn relation).opcode).eraseOperand 0 := by
      simp only [branch, hrelation]
    refine ⟨?_, ?_, hfalse⟩
    · rw [hbranch, hroots, Instruction.uses_eraseOperand_zero, huses.2]
      rfl
    · rw [hbranch]
      show (Op.branchOn relation).opcode ≠ Op.cbnz.opcode
      cases relation <;> decide

theorem sameRegisters_narrowTo32 (hroot : ∀ id bits, rs.root (rs.withWidth id bits) = rs.root id)
    {os : List Operand} {dest : Operand} {reg : RegId} (hdest : os[0]? = some dest)
    (hreg : dest.reg? = some reg) :
    Instruction.SameRegisters rs os (os.modify 0 (narrowTo32 rs reg)) := by
  refine .modify_zero fun o ho => ?_
  cases hdest.symm.trans ho
  rw [hreg]
  exact congrArg some (hroot reg 32)

/-- **What a native form shows**: all that the instruction reads, unless it is a return, a compare or
a branch on the flags. -/
theorem Form.readRoots {op : GenericOp} (h : Form rs site op r)
    (hroot : ∀ id bits, rs.root (rs.withWidth id bits) = rs.root id) :
    r.readRoots rs = site.instruction.readRoots rs ∨ op = .ret ∨
      (op = .cmp ∨ op = .cmpf ∨ op = .branch ∧ r.first.opcode ≠ Op.cbnz.opcode ∧
        ∀ j ∈ r.rest, j.opcode ≠ Op.cbnz.opcode) ∧
      r.readRoots rs = Operand.roots rs site.instruction.uses.tail := by
  have hconstant : ∀ {source : Operand} {value : Int}, site.instruction.operand? 1 = some source →
      source.immediate? = some value → ∀ o, site.instruction.operands[1]? = some o →
        o.reg? = none := by
    intro source value hsource hvalue o ho
    cases hsource.symm.trans ho
    exact reg?_of_immediate? hvalue
  cases h with
  | register | constant | move | load | store | convert | stackAddress | jump | call =>
    exact .inl (readRoots_setOpcode _ _)
  | compare hop =>
    refine .inr (.inr ⟨hop.imp (·.1) fun hop => .inl hop.1, ?_⟩)
    exact (Replacement.readRoots_eq fun j hj => by cases List.mem_singleton.mp hj; rfl).trans
      (readRoots_compare _ _)
  | fused hop =>
    refine .inr (.inr ⟨hop.imp (·.1) fun hop => .inl hop.1, ?_⟩)
    exact (Replacement.readRoots_single _).trans (readRoots_compare _ _)
  | smallConstant hop hdest hsource hvalue hsmall =>
    refine .inl ((Replacement.readRoots_single _).trans ?_)
    exact (Instruction.SameRegisters.set_one (hconstant hsource hvalue) rfl).readRoots rfl
  | wideConstant hop hdest hsource hvalue hwidth =>
    refine .inl ((Replacement.readRoots_eq fun j hj => ?_).trans ?_)
    · obtain ⟨shift, -, hj⟩ := List.mem_flatMap.mp hj
      exact readRoots_moveField _ _ _ j hj
    · exact (Instruction.SameRegisters.set_one (hconstant hsource hvalue) rfl).readRoots rfl
  | zextLoad hdest hsource hwidth hreg =>
    have hload : (site.instruction.eraseOperand 1).readRoots rs =
        site.instruction.readRoots rs :=
      (Instruction.SameRegisters.erase_one (hconstant hsource hwidth)).readRoots rfl
    refine .inl ((Replacement.readRoots_single _).trans (Eq.trans ?_ hload))
    refine (sameRegisters_narrowTo32 hroot ?_ hreg).readRoots rfl
    rw [Instruction.operands_eraseOperand, List.getElem?_eraseIdx_of_lt Nat.zero_lt_one]
    exact hdest
  | extend hselected hdest hreg =>
    exact .inl ((Replacement.readRoots_single _).trans
      ((sameRegisters_narrowTo32 hroot hdest hreg).readRoots rfl))
  | mask hdest =>
    have hne : site.instruction.operands ≠ [] := by
      intro hnil
      rw [Instruction.operand?, hnil] at hdest
      cases hdest
    exact .inl ((Replacement.readRoots_single _).trans
      ((Instruction.SameRegisters.append hne rfl).readRoots rfl))
  | branch h =>
    rcases readRoots_selectBranch h with hsame | ⟨htail, hbranch⟩
    · exact .inl hsame
    · exact .inr (.inr ⟨.inr (.inr ⟨rfl, hbranch⟩), htail⟩)
  | ret => exact .inr (.inl rfl)

/-! ## Forgotten reads -/

/-- The instruction `j`, which became `new`, reads a register that shares storage with `d`, and its
selected form does not show that. -/
inductive Forgets (rs : Registers) (j : Instruction) (new : List Instruction) (d : RegId) : Prop
  /-- A selected return has no operands. -/
  | ret (hop : j.isGeneric .ret) (h : j.Reads rs d)
  /-- A selected compare begins with its first source, in the place of a destination. -/
  | compare (hop : j.isGeneric .cmp ∨ j.isGeneric .cmpf) (h : j.ReadsFirstOnly rs d)
  /-- A branch on the flags has no condition. -/
  | branch (hop : j.isGeneric .branch) (hflags : ∀ i ∈ new, i.opcode ≠ Op.cbnz.opcode)
      (h : j.ReadsFirstOnly rs d)

theorem Forgets.reads {j : Instruction} {new : List Instruction} {d : RegId}
    (h : Forgets rs j new d) : j.Reads rs d := by
  cases h with
  | ret _ h => exact h
  | compare _ h => exact h.1
  | branch _ _ h => exact h.1

end AArch64

end Target

namespace Machine

open Target.AArch64

variable {f g : Function} {b k b' k' : Nat} {i j : Instruction} {d : RegId}

namespace Function

theorem Became.forgets {new : List Instruction} (h : Became aarch64 f b k j new)
    (hreads : j.Reads registers d) (hnone : ∀ i ∈ new, ¬i.Reads registers d) :
    Forgets registers j new d := by
  rcases h with ⟨-, rfl⟩ | ⟨op, r, hop, hr, rfl⟩
  · exact absurd hreads (hnone j (List.mem_singleton_self j))
  · obtain ⟨form, hform, rfl⟩ := AArch64.select_eq_ok hr
    have hgeneric : j.isGeneric op :=
      Instruction.isGeneric_iff.mpr (Instruction.generic?_eq_some hop)
    have hshown : registers.root d ∉ form.readRoots registers := by
      rw [Replacement.readRoots, List.mem_flatMap]
      rintro ⟨i, hi, hmem⟩
      rcases List.mem_cons.mp hi with rfl | hi
      · refine hnone _ List.mem_cons_self (Instruction.reads_iff.mpr ?_)
        rwa [readRoots_widenRegisters]
      · exact hnone i (List.mem_cons_of_mem _ hi) (Instruction.reads_iff.mpr hmem)
    rcases hform.readRoots Arch.aarch64.root_withWidth with hsame | rfl | ⟨hop, htail⟩
    · exact absurd (Instruction.reads_iff.mp hreads) (hsame ▸ hshown)
    · exact .ret hgeneric hreads
    · have hfirst : j.ReadsFirstOnly registers d := ⟨hreads, htail ▸ hshown⟩
      rcases hop with rfl | rfl | ⟨rfl, hbranch, hrest⟩
      · exact .compare (.inl hgeneric) hfirst
      · exact .compare (.inr hgeneric) hfirst
      · refine .branch hgeneric (fun i hi => ?_) hfirst
        rcases List.mem_cons.mp hi with rfl | hi
        · exact hbranch
        · exact hrest i hi

/-- No instruction but the one at `(b, k)` reads a register that shares storage with `d`. -/
def UnreadBut (f : Function) (rs : Registers) (b k : Nat) (d : RegId) : Prop :=
  ∀ b' k' j, f.instruction? b' k' = some j → (b', k') ≠ (b, k) → ¬j.Reads rs d

theorem unreadBut_of_isReadElsewhere {rs : Registers}
    (h : isReadElsewhere rs f b k d = false) : f.UnreadBut rs b k d := by
  rintro b' k' j hj hne ⟨o, ho, r, hr, hoverlaps⟩
  obtain ⟨block, hblock, hj⟩ := Option.bind_eq_some_iff.mp hj
  have hread : isReadElsewhere rs f b k d := by
    refine List.any_eq_true.mpr ⟨(block, b'), List.mem_zipIdx_iff_getElem?.mpr hblock, ?_⟩
    refine List.any_eq_true.mpr ⟨(j, k'), List.mem_zipIdx_iff_getElem?.mpr hj, ?_⟩
    rw [Bool.and_eq_true]
    exact ⟨by simpa using hne, List.any_eq_true.mpr ⟨r, List.mem_filterMap.mpr ⟨o, ho, hr⟩,
      hoverlaps⟩⟩
  rw [h] at hread
  cases hread

theorem exists_instruction?_rewriteUpTo {new : Nat → Nat → List Instruction}
    (hbefore : b' < b ∨ b' = b ∧ k' < k) (hj : f.instruction? b' k' = some j)
    (hi : i ∈ new b' k') : ∃ k'', (f.rewriteUpTo new b k).instruction? b' k'' = some i ∧
      (b' = b → k'' < offset (new b) k) := by
  obtain ⟨block, hblock, hj⟩ := Option.bind_eq_some_iff.mp hj
  obtain ⟨hk', -⟩ := List.getElem?_eq_some_iff.mp hj
  have hmem : i ∈ (List.range (passed b k b' block.instructions.length)).flatMap (new b') := by
    refine List.mem_flatMap.mpr ⟨k', List.mem_range.mpr ?_, hi⟩
    rw [passed]
    split
    · exact hk'
    · rw [if_pos (by omega)]
      omega
  obtain ⟨k'', hk''⟩ := List.mem_iff_getElem?.mp hmem
  obtain ⟨hlt, -⟩ := List.getElem?_eq_some_iff.mp hk''
  refine ⟨k'', ?_, ?_⟩
  · rw [instruction?, blocks_rewriteUpTo, hblock]
    show (rewritten (new b') _ block.instructions)[k'']? = some i
    rw [rewritten, List.getElem?_append_left hlt, hk'']
  · rintro rfl
    rwa [passed, if_neg (Nat.lt_irrefl b'), if_pos rfl] at hlt

theorem exists_instruction?_rewriteUpTo_of_not_before {new : Nat → Nat → List Instruction}
    (hbefore : ¬(b' < b ∨ b' = b ∧ k' < k)) (hj : f.instruction? b' k' = some j) :
    ∃ k'', (f.rewriteUpTo new b k).instruction? b' k'' = some j ∧
      (b' = b → k'' + k = offset (new b) k + k') := by
  by_cases hb : b' = b
  · subst hb
    obtain ⟨n, rfl⟩ := Nat.exists_eq_add_of_le (by omega : k ≤ k')
    exact ⟨_, (f.instruction?_rewriteUpTo new b' k n).trans hj, fun _ => by omega⟩
  · refine ⟨k', ?_, fun h => absurd h hb⟩
    obtain ⟨block, hblock, hj⟩ := Option.bind_eq_some_iff.mp hj
    have hpassed : passed b k b' block.instructions.length = 0 := by
      rw [passed, if_neg (by omega), if_neg hb]
    rw [instruction?, blocks_rewriteUpTo, hblock]
    show (rewritten (new b') (passed b k b' block.instructions.length)
      block.instructions)[k']? = some j
    rw [hpassed, rewritten_zero, hj]

/-- A function whose selected part does not show a read is unread exactly if nothing in that part
forgot one. -/
theorem unreadBut_iff (h : f.selectInstructions aarch64 = .ok g)
    (hunread : (f.rewriteUpTo (becomes aarch64 f) b k).UnreadBut registers b
      (offset (becomes aarch64 f b) k + 1) d) :
    f.UnreadBut registers b (k + 1) d ↔ ∀ b' k' j, b' < b ∨ b' = b ∧ k' < k →
      f.instruction? b' k' = some j → ¬Forgets registers j (becomes aarch64 f b' k') d := by
  refine ⟨fun hnone b' k' j hbefore hj hforgets => ?_, fun hkept b' k' j hj hne hreads => ?_⟩
  · refine hnone b' k' j hj (fun heq => ?_) hforgets.reads
    cases heq
    omega
  · by_cases hbefore : b' < b ∨ b' = b ∧ k' < k
    · refine hkept b' k' j hbefore hj ((became h hj).forgets hreads fun i hi => ?_)
      obtain ⟨k'', hk'', hlt⟩ := exists_instruction?_rewriteUpTo hbefore hj hi
      refine hunread b' k'' i hk'' fun heq => ?_
      cases heq
      have := hlt rfl
      omega
    · obtain ⟨k'', hk'', hkeeps⟩ := exists_instruction?_rewriteUpTo_of_not_before hbefore hj
      refine hunread b' k'' j hk'' (fun heq => hne ?_) hreads
      cases heq
      have := hkeeps rfl
      rw [show k' = k + 1 by omega]

/-- **A compare whose destination is not set is followed by a branch on it, and nothing else reads
it exactly if no read was forgotten before.** -/
theorem fused_iff (h : f.selectInstructions aarch64 = .ok g)
    (hi : f.instruction? b k = some i) (hcompare : i.isGeneric .cmp ∨ i.isGeneric .cmpf)
    (hd : (i.operand? 0).bind (·.reg?) = some d)
    (hfused : ∀ j ∈ becomes aarch64 f b k, setsCondition j (some d) = false) :
    g = aarch64.fixUp (f.rewrite (becomes aarch64 f)) ∧
      (∃ next, f.instruction? b (k + 1) = some next ∧ next.isGeneric .branch ∧
        (next.operand? 0).bind (·.reg?) = some d) ∧
      (f.UnreadBut registers b (k + 1) d ↔ ∀ b' k' j, b' < b ∨ b' = b ∧ k' < k →
        f.instruction? b' k' = some j → ¬Forgets registers j (becomes aarch64 f b' k') d) := by
  refine ⟨selectInstructions_eq h, ?_⟩
  rcases became h hi with ⟨hselected, -⟩ | ⟨op, r, hop, hr, hnew⟩
  · rcases hcompare with hop | hop <;>
      simp [Instruction.isSelected, Instruction.isGeneric_iff.mp hop, Opcode.isSelected]
        at hselected
  · obtain ⟨form, hform, rfl⟩ := AArch64.select_eq_ok hr
    have hop := Instruction.generic?_eq_some hop
    have hcompare : op = .cmp ∨ op = .cmpf :=
      hcompare.imp (fun h => Opcode.generic.inj (hop.symm.trans (Instruction.isGeneric_iff.mp h)))
        fun h => Opcode.generic.inj (hop.symm.trans (Instruction.isGeneric_iff.mp h))
    cases hform with
    | @compare _ _ relation dest _ _ hdest =>
      rw [show i.operand? 0 = some dest from hdest, Option.bind_some] at hd
      have hset := hfused (((Op.setOn relation).on [dest]).withRelation relation) (by simp [hnew])
      rw [setsCondition_setOn hd] at hset
      cases hset
    | fused _ hdest _ hd' hnext hbranch hcond hunread =>
      rw [show i.operand? 0 = some _ from hdest, Option.bind_some] at hd
      cases hd.symm.trans hd'
      refine ⟨⟨_, ?_, hbranch, hcond⟩, unreadBut_iff h (unreadBut_of_isReadElsewhere hunread)⟩
      exact (f.instruction?_rewriteUpTo _ b k 1).symm.trans hnext
    | register hforms | constant hforms =>
      rcases hcompare with rfl | rfl <;> cases hforms
    | smallConstant hop | wideConstant hop | move hop | convert hop =>
      rcases hcompare with rfl | rfl <;> simp at hop
    | _ => simp at hcompare

/-- A function that compares into `w0`, branches on it, and returns some operands in a block that is
laid out in front of the compare and run behind it. -/
def returning (returned : List Operand) : Function where
  name := "f"
  blocks := [
    ⟨"entry", [.generic .jump [.label "test"]]⟩,
    ⟨"done", [.generic .ret returned]⟩,
    ⟨"test", [(Instruction.generic .cmp [.physicalReg 0 (.integer 32), .physicalReg 1 (.integer 32),
        .immediate 7 (.integer 32)]).withRelation .eq,
      .generic .branch [.physicalReg 0 (.integer 32), .label "done", .label "other"]]⟩,
    ⟨"other", [.generic .ret []]⟩]

/-- If nothing is returned, the compare is fused and nothing else reads its destination. -/
theorem fused_returning_nothing : ∃ g, (returning []).selectInstructions aarch64 = .ok g ∧
    (∃ next, (returning []).instruction? 2 1 = some next ∧ next.isGeneric .branch ∧
      (next.operand? 0).bind (·.reg?) = some 0) ∧
    (returning []).UnreadBut registers 2 1 0 := by
  have hselected : (do
      let _ ← (returning []).selectInstructions aarch64
      pure ()) = (.ok () : Result Unit) := by
    decide +kernel
  obtain ⟨g, hg, -⟩ := bind_eq_ok.mp hselected
  obtain ⟨-, hnext, hiff⟩ := fused_iff hg (b := 2) (k := 0) rfl (.inl rfl) rfl (by decide +kernel)
  refine ⟨g, hg, hnext, hiff.mpr fun b' k' j hbefore hj hforgets => ?_⟩
  have hearly : ∀ block ∈ (returning []).blocks.take 2, ∀ j ∈ block.instructions,
      ¬j.Reads registers 0 := by
    decide +kernel
  obtain ⟨block, hblock, hj⟩ := Option.bind_eq_some_iff.mp hj
  rw [← List.getElem?_take_of_lt (by omega : b' < 2)] at hblock
  exact hearly block (List.mem_of_getElem? hblock) j (List.mem_of_getElem? hj) hforgets.reads

/-- **A returned compare is fused**: the return is selected before the compare, so the scan does not
see that it reads the destination, and nothing sets it. -/
theorem fused_returning : ∃ g, (returning [.physicalReg 0 (.integer 32)]).selectInstructions
      aarch64 = .ok g ∧
    (∀ j ∈ becomes aarch64 (returning [.physicalReg 0 (.integer 32)]) 2 0,
      setsCondition j (some 0) = false) ∧
    (∀ j ∈ g.instructions, setsCondition j (some 0) = false) ∧
    ¬(returning [.physicalReg 0 (.integer 32)]).UnreadBut registers 2 1 0 := by
  have hselected : (do
      let g ← (returning [.physicalReg 0 (.integer 32)]).selectInstructions aarch64
      pure (g.instructions.all fun j => !setsCondition j (some 0))) = (.ok true : Result Bool) := by
    decide +kernel
  obtain ⟨g, hg, hnone⟩ := bind_eq_ok.mp hselected
  refine ⟨g, hg, by decide +kernel, ?_, fun hunread => ?_⟩
  · simpa using pure_eq_ok.mp hnone
  · exact hunread 1 0 _ rfl (by decide) (by decide +kernel)

end Function

end Machine

end Retarget
