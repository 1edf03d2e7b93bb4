import Retarget.Proofs.Native.Loads

/-!
# What processors answer about loaded integers

Processors of different targets have nothing in common but that they run code over registers and
memory (`Machine.Platform`).  That is enough to say what the native code of a load of an integer
leaves in its register (`Platform.Loads`), what the native code of a compare with a constant answers
about a register (`Platform.Compares`), and what both together answer about memory
(`Platform.comparesLoaded_of`).

Native code may depend on where an instruction stands (`Function.SelectsInto`): the answer of a
compare that only a branch behind it needs stays in the flags.
-/

namespace Retarget

open Machine Target

namespace Machine.Function

variable {t : Target} {f g : Function} {b k : Nat} {i j : Instruction} {is js : List Instruction}

/-! ## Legal instructions -/

theorem legalizeFrom_of_isLegal (hcode : f.HasAt b k is)
    (hlegal : ∀ n < is.length, t.isLegal f b (k + n)) (budget : Nat) :
    legalizeFrom t b (is.length + budget) k f = legalizeFrom t b budget (k + is.length) f := by
  induction is generalizing k with
  | nil => rw [List.length_nil, Nat.zero_add, Nat.add_zero]
  | cons i is ih =>
    have hsettle : f.settle t b k maxExpansions = .ok f := by
      rw [settle]
      exact if_pos (hlegal 0 (Nat.zero_lt_succ _))
    have hrest := ih hcode.tail fun n hn => by
      rw [Nat.add_right_comm]
      exact hlegal (n + 1) (Nat.succ_lt_succ hn)
    rw [List.length_cons, Nat.add_right_comm, legalizeFrom,
      if_pos (Target.lt_blockLength hcode.instruction?), hsettle, ok_bind, hrest, Nat.add_assoc,
      Nat.add_comm 1]

theorem LegalizesTo.of_isLegal (hi : f.instruction? b k = some i) (hlegal : t.isLegal f b k) :
    f.LegalizesTo t b k [i] [i] f :=
  ⟨(hasAt_singleton hi).refl, legalizeFrom_of_isLegal (hasAt_singleton hi) fun n hn => by
    rwa [Nat.lt_one_iff.mp hn]⟩

theorem LegalizesTo.of_expand (hi : f.instruction? b k = some i)
    (hillegal : t.isLegal f b k = false) (hexpandable : t.isExpandable i)
    (hg : t.expand f b k = .ok g) (hreplaces : f.Replaces b k [i] (j :: js) g)
    (hlegal : ∀ n < (j :: js).length, t.isLegal g b (k + n)) :
    f.LegalizesTo t b k [i] (j :: js) g := by
  have hcode : g.HasAt b k (j :: js) := hreplaces.hasAt
  have hsettle : f.settle t b k maxExpansions = g.settle t b k maxExpansions := by
    have hdone : ∀ rounds, g.settle t b k rounds = .ok g := fun rounds => by
      rw [settle]
      exact if_pos (hlegal 0 (Nat.zero_lt_succ _))
    rw [hdone, maxExpansions, settle, hillegal, if_neg Bool.false_ne_true, hi]
    dsimp only
    rw [if_pos hexpandable, hg, ok_bind, hdone]
  refine ⟨hreplaces, fun budget => ?_⟩
  rw [← legalizeFrom_of_isLegal hcode hlegal budget, List.length_cons, Nat.add_right_comm,
    legalizeFrom, legalizeFrom, if_pos (Target.lt_blockLength hi),
    if_pos (Target.lt_blockLength hcode.instruction?), hsettle]

/-- A branch on a register stands at a position. -/
def BranchesAt (f : Function) (b k : Nat) (reg : RegId) : Prop :=
  ∃ next, f.instruction? b k = some next ∧ next.isGeneric .branch ∧
    (next.operand? 0).bind (·.reg?) = some reg

theorem Replaces.instruction?_behind {old new : List Instruction} (h : f.Replaces b k old new g)
    (n : Nat) : g.instruction? b (k + new.length + n) = f.instruction? b (k + old.length + n) := by
  obtain ⟨block, before, after, hblock, hcode, rfl, hg⟩ := h.code
  have hb := (List.getElem?_eq_some_iff.mp hblock).1
  rw [instruction?, instruction?, hg, List.getElem?_set_self hb, hblock]
  simp only [Option.bind_eq_bind, Option.bind_some, hcode]
  rw [Nat.add_assoc, Nat.add_assoc, List.getElem?_append_right (Nat.le_add_right _ _),
    List.getElem?_append_right (Nat.le_add_right _ _), Nat.add_sub_cancel_left,
    Nat.add_sub_cancel_left, List.getElem?_append_right (Nat.le_add_right _ _),
    List.getElem?_append_right (Nat.le_add_right _ _), Nat.add_sub_cancel_left,
    Nat.add_sub_cancel_left]

theorem BranchesAt.of_replaceAt {n : Nat} {reg : RegId} (hi : f.instruction? b k = some i)
    (h : (f.replaceAt b k [j]).BranchesAt b (k + 1 + n) reg) : f.BranchesAt b (k + 1 + n) reg := by
  obtain ⟨next, hnext, hbranch⟩ := h
  exact ⟨next, ((Replaces.replaceAt hi [j]).instruction?_behind n).symm.trans hnext, hbranch⟩

/-- When selection comes to the old instructions, wherever they stand, it turns them into new ones
that may depend on where that is, and goes on behind these. -/
def SelectsInto (t : Target) (old : List Instruction)
    (P : Function → Nat → Nat → List Instruction → Prop) : Prop :=
  ∀ f b k, f.HasAt b k old → ∃ new g, P f b k new ∧ f.Replaces b k old new g ∧
    ∀ count, selectFrom t b (old.length + count) k f = selectFrom t b count (k + new.length) g

theorem SelectsTo.into {new : List Instruction} (h : SelectsTo t is new)
    {P : Function → Nat → Nat → List Instruction → Prop} (hP : ∀ f b k, P f b k new) :
    SelectsInto t is P := by
  intro f b k hcode
  obtain ⟨g, hreplaces, hwalk⟩ := h f b k hcode
  exact ⟨new, g, hP f b k, hreplaces, hwalk⟩

theorem SelectsInto.mono {P Q : Function → Nat → Nat → List Instruction → Prop}
    (h : SelectsInto t is P) (hPQ : ∀ f b k new, P f b k new → Q f b k new) :
    SelectsInto t is Q := by
  intro f b k hcode
  obtain ⟨new, g, hnew, hwalk⟩ := h f b k hcode
  exact ⟨new, g, hPQ f b k new hnew, hwalk⟩

/-- An instruction whose native form may depend on where it stands. -/
theorem SelectsInto.of_select {P : Function → Nat → Nat → List Instruction → Prop} {op : GenericOp}
    (hop : i.opcode = .generic op) (hj : j.isSelected)
    (hselect : ∀ f b k, ∃ rest, P f b k (j :: rest) ∧
      t.select { function := f, block := b, index := k, instruction := i } op = .ok ⟨j, rest⟩) :
    SelectsInto t [i] P := by
  intro f b k hcode
  obtain ⟨rest, hP, hselect⟩ := hselect f b k
  have hselectAt := selectAt_of_select hcode.instruction? hop hselect hj
  refine ⟨j :: rest, _, hP, Replaces.replaceAt hcode.instruction? _, fun count => ?_⟩
  rw [List.length_singleton, Nat.add_comm, selectFrom, hselectAt, ok_bind]

theorem SelectsInto.cons {P Q : Function → Nat → Nat → List Instruction → Prop} {op : GenericOp}
    (h : SelectsInto t is P) (hop : i.opcode = .generic op)
    (hselect : ∀ f b k, t.select { function := f, block := b, index := k, instruction := i } op =
      .ok ⟨j, []⟩) (hj : j.isSelected)
    (hPQ : ∀ f b k new, f.instruction? b k = some i → P (f.replaceAt b k [j]) b (k + 1) new →
      Q f b k (j :: new)) : SelectsInto t (i :: is) Q := by
  intro f b k hcode
  have hselectAt := selectAt_of_select hcode.instruction? hop (hselect f b k) hj
  have hreplaces := Replaces.replaceAt hcode.instruction? [j]
  have hcode' := hcode.replaces hreplaces
  obtain ⟨new, g, hnew, hreplaces', hwalk⟩ := h _ b (k + 1) hcode'.tail
  refine ⟨j :: new, g, hPQ f b k new hcode.instruction? hnew,
    (hreplaces.append hcode).trans (hreplaces'.cons hcode'.instruction?), fun count => ?_⟩
  rw [List.length_cons, Nat.add_right_comm, selectFrom, hselectAt, ok_bind]
  refine (hwalk count).trans ?_
  rw [List.length_cons, Nat.add_assoc, Nat.add_comm 1]

end Machine.Function

namespace Machine

variable {t : Target}

/-! ## Loads and compares of integers -/

def integerLoad (bits : Nat) (v : RegId) (place : Operand) : Instruction :=
  .generic .load [.virtualReg v (.integer bits), place]

def constantCompare (bits : Nat) (r : Relation) (d v : RegId) (constant : Int) : Instruction :=
  (Instruction.generic .cmp [.virtualReg d (.integer 1), .virtualReg v (.integer bits),
    .immediate constant (.integer bits)]).withRelation r

namespace Function

variable {f : Function} {assigned : List (RegId × RegId)} {v reg base : RegId}
  {offset : Int} {place : Operand}

theorem placeOperand_virtualReg (name : String) (h : assigned.lookup v = some reg) (ty : LowType) :
    placeOperand t name assigned (.virtualReg v ty) =
      .ok ((Operand.virtualReg v ty).setPhysical (t.registers.withWidth reg ty.bits)) :=
  placeOperand_of_lookup name (.inl rfl) h

/-- A load of an integer over a base register and an offset. -/
def placedLoad (t : Target) (bits : Nat) (v reg base : RegId) (offset : Int) : Instruction :=
  let loaded := (Operand.virtualReg v (.integer bits)).setPhysical (t.registers.withWidth reg bits)
  .generic .load [loaded, .physicalReg base t.pointerType, .immediate offset t.offsetType]

theorem placeInstruction_integerLoad (bits : Nat) (h : assigned.lookup v = some reg)
    (hresolve : f.resolveMemory t assigned place = .ok (base, offset)) :
    f.placeInstruction t assigned (integerLoad bits v place) =
      .ok (placedLoad t bits v reg base offset) := by
  have hplaced : [Operand.virtualReg v (.integer bits)].mapM (placeOperand t f.name assigned) =
      .ok [(Operand.virtualReg v (.integer bits)).setPhysical
        (t.registers.withWidth reg bits)] := by
    rw [List.mapM_cons, placeOperand_virtualReg f.name h]
    rfl
  exact placeInstruction_of_place rfl hplaced (List.forall_mem_singleton.mpr rfl) hresolve

end Function

/-! ## Platforms -/

/-- What a processor shows that runs the code of a target. -/
structure Platform (t : Target) where
  State : Type
  /-- What selected code does. -/
  run : List Instruction → State → Option State
  /-- The number in a full-width register. -/
  read : State → RegId → Nat
  /-- The bits in memory at an offset from a base register. -/
  bitsAt : State → RegId → Int → (bits : Nat) → BitVec bits
  /-- Whether flags, if there are any, say that a relation holds of what was compared. -/
  flags? : State → Relation → Option Bool
  /-- The registers for values. -/
  IsGeneral : RegId → Prop
  /-- The registers for addresses. -/
  IsBase : RegId → Prop

namespace Platform

variable (p : Platform t)

/-- Registers for some ids and for the new ids in a range, where the new ones share theirs with
nothing. -/
structure Houses (assigned : List (RegId × RegId)) (home : RegId → RegId) (old : List RegId)
    (next next' : Nat) : Prop where
  assigned : ∀ id, id ∈ old ∨ next ≤ id ∧ id < next' → assigned.lookup id = some (home id)
  general : ∀ id, id ∈ old ∨ next ≤ id ∧ id < next' → p.IsGeneral (home id)
  apart : ∀ id ∈ old, ∀ new, next ≤ new → new < next' →
    t.registers.root (home id) ≠ t.registers.root (home new)
  distinct : ∀ new new', next ≤ new → new < new' → new' < next' →
    t.registers.root (home new) ≠ t.registers.root (home new')

/-- Loads of integers are legal, and their code leaves a number in the register that depends on
what is in memory. -/
def Loads (bits : Nat) (number : BitVec bits → Nat) : Prop :=
  ∀ (f : Function) (b k : Nat) (v : RegId) (place : Operand), place.isPlace →
    f.instruction? b k = some (integerLoad bits v place) →
    f.LegalizesTo t b k [integerLoad bits v place] [integerLoad bits v place] f ∧
    ∀ assigned reg base offset, assigned.lookup v = some reg → p.IsGeneral reg →
      f.resolveMemory t assigned place = .ok (base, offset) → p.IsBase base →
      ∃ placed code, f.placeInstruction t assigned (integerLoad bits v place) = .ok placed ∧
        Function.SelectsTo t [placed] code ∧
        ∀ s, ∃ s', p.run code s = some s' ∧ p.read s' reg = number (p.bitsAt s base offset bits)

/-- An answer is in a register, or, if it is only for a branch, in the flags. -/
def Answers (s : p.State) (reg : RegId) (r : Relation) (isForBranch : Prop) (answer : Bool) :
    Prop :=
  p.read s reg = answer.toNat ∨ isForBranch ∧ p.flags? s r = some answer

/-- Compares of integers with a constant become code that answers about the number in the register,
in the destination unless a branch on it is right behind. -/
def Compares (bits : Nat) (r : Relation) (constant : Int) (answer : Nat → Bool) : Prop :=
  ∀ (f : Function) (b k : Nat) (d v : RegId),
    f.instruction? b k = some (constantCompare bits r d v constant) → f.nextId + 4 < 2 ^ 32 →
    ∃ g legal, f.LegalizesTo t b k [constantCompare bits r d v constant] legal g ∧
      g.nextId ≤ f.nextId + 4 ∧
      ∀ assigned home, p.Houses assigned home [d, v] f.nextId g.nextId →
        ∃ placed, legal.mapM (g.placeInstruction t assigned) = .ok placed ∧
          Function.SelectsInto t placed fun F b k code => ∀ s, ∃ s', p.run code s = some s' ∧
            p.Answers s' (home d) r
              (F.BranchesAt b (k + placed.length) (t.registers.withWidth (home d) 1))
              (answer (p.read s (home v)))

/-- Wherever a load of an integer and a compare of it with a constant stand, legalization leaves the
one as it is and turns the other into code.  Once ids have registers, selection turns both into
native code, and if the register still holds what the one loaded, the other answers about what was
in memory then. -/
def ComparesLoaded (bits : Nat) (r : Relation) (constant : Int) (answer : BitVec bits → Bool) :
    Prop :=
  ∀ (f f' : Function) (b k b' k' : Nat) (d v : RegId) (place : Operand), place.isPlace →
    f.instruction? b k = some (integerLoad bits v place) →
    f'.instruction? b' k' = some (constantCompare bits r d v constant) → f'.nextId + 4 < 2 ^ 32 →
    f.LegalizesTo t b k [integerLoad bits v place] [integerLoad bits v place] f ∧
    ∃ g legal, f'.LegalizesTo t b' k' [constantCompare bits r d v constant] legal g ∧
      g.nextId ≤ f'.nextId + 4 ∧
      ∀ assigned home base offset, p.Houses assigned home [d, v] f'.nextId g.nextId →
        f.resolveMemory t assigned place = .ok (base, offset) → p.IsBase base →
        ∃ load loading placed,
          f.placeInstruction t assigned (integerLoad bits v place) = .ok load ∧
          Function.SelectsTo t [load] loading ∧
          legal.mapM (g.placeInstruction t assigned) = .ok placed ∧
          Function.SelectsInto t placed fun F n m comparing =>
            ∀ s, ∃ s₁, p.run loading s = some s₁ ∧
              ∀ s₂, p.read s₂ (home v) = p.read s₁ (home v) →
                ∃ s₃, p.run comparing s₂ = some s₃ ∧ p.Answers s₃ (home d) r
                  (F.BranchesAt n (m + placed.length) (t.registers.withWidth (home d) 1))
                  (answer (p.bitsAt s base offset bits))

variable {p}

theorem comparesLoaded_of {bits : Nat} {r : Relation} {constant : Int}
    {number : BitVec bits → Nat} {answer : Nat → Bool} {answer' : BitVec bits → Bool}
    (hloads : p.Loads bits number) (hcompares : p.Compares bits r constant answer)
    (hanswer : ∀ word, answer (number word) = answer' word) :
    p.ComparesLoaded bits r constant answer' := by
  intro f f' b k b' k' d v place hplace hload hcompare hroom
  obtain ⟨hlegal, hcode⟩ := hloads f b k v place hplace hload
  obtain ⟨g, legal, hlegalizes, hnext, hcode'⟩ := hcompares f' b' k' d v hcompare hroom
  refine ⟨hlegal, g, legal, hlegalizes, hnext, fun assigned home base offset h hbase hisbase => ?_⟩
  have hv : v ∈ [d, v] ∨ f'.nextId ≤ v ∧ v < g.nextId := .inl (by simp)
  obtain ⟨load, loading, hplaced, hselects, hrun⟩ :=
    hcode assigned (home v) base offset (h.assigned v hv) (h.general v hv) hbase hisbase
  obtain ⟨placed, hplaced', hselects'⟩ := hcode' assigned home h
  refine ⟨load, loading, placed, hplaced, hselects, hplaced',
    hselects'.mono fun F n m comparing hanswers s => ?_⟩
  obtain ⟨s₁, hs₁, hread⟩ := hrun s
  refine ⟨s₁, hs₁, fun s₂ hkept => ?_⟩
  rw [← hanswer, ← hread, ← hkept]
  exact hanswers s₂

end Platform

end Machine

end Retarget
