import Retarget.Proofs.Legality.Compares
import Retarget.Proofs.Selection.Walk

/-!
# Compares in RV32 registers

What compares of registers and constants become, once registers are assigned and instructions
selected, leaves one in the destination register if the relation holds and zero otherwise
(`Riscv.exists_compares`).  In between stand the words that elementary code computes under an
assignment (`Riscv.perform`): legalization keeps them but for new registers (`Riscv.Becomes.agree`),
and each native instruction computes the one of its elementary instruction
(`Riscv.Elementary.hasNative`).
-/

namespace Retarget

open Machine Target

/-! ## Selection of pieces of code -/

namespace Machine.Function

variable {t : Target} {i j : Instruction} {op : GenericOp} {is js : List Instruction}

/-- When selection comes to the old instructions, wherever they stand, it turns them into the new
ones and goes on behind these. -/
def SelectsTo (t : Target) (old new : List Instruction) : Prop :=
  ∀ f b k, f.HasAt b k old → ∃ g, f.Replaces b k old new g ∧
    ∀ count, selectFrom t b (old.length + count) k f = selectFrom t b count (k + new.length) g

theorem SelectsTo.nil (t : Target) : SelectsTo t [] [] := by
  intro f b k hcode
  refine ⟨f, hcode.refl, fun count => ?_⟩
  rw [List.length_nil, Nat.zero_add, Nat.add_zero]

theorem SelectsTo.cons (h : SelectsTo t is js) (hop : i.opcode = .generic op)
    (hselect : ∀ f b k, t.select { function := f, block := b, index := k, instruction := i } op =
      .ok ⟨j, []⟩) (hj : j.isSelected) : SelectsTo t (i :: is) (j :: js) := by
  intro f b k hcode
  have hselectAt := selectAt_of_select hcode.instruction? hop (hselect f b k) hj
  have hreplaces := Replaces.replaceAt hcode.instruction? [j]
  have hcode' := hcode.replaces hreplaces
  obtain ⟨g, hreplaces', hwalk⟩ := h _ b (k + 1) hcode'.tail
  refine ⟨g, (hreplaces.append hcode).trans (hreplaces'.cons hcode'.instruction?),
    fun count => ?_⟩
  rw [List.length_cons, Nat.add_right_comm, selectFrom, hselectAt, ok_bind]
  refine (hwalk count).trans ?_
  rw [List.length_cons, Nat.add_assoc, Nat.add_comm 1]

end Machine.Function

namespace Target.Riscv

/-! ## Registers -/

/-- What the registers hold; the zero register reads as zero whatever is here. -/
abbrev Contents := RegId → BitVec 32

namespace Contents

def read (σ : Contents) (reg : RegId) : BitVec 32 := if reg = zero then 0 else σ reg

def write (σ : Contents) (reg : RegId) (value : BitVec 32) : Contents :=
  Function.update σ reg value

variable {σ : Contents} {reg r : RegId} {value : BitVec 32}

@[simp] theorem read_zero : σ.read zero = 0 := if_pos rfl

theorem read_write (h : reg ≠ zero) : (σ.write reg value).read reg = value := by
  rw [read, if_neg h, write, Function.update_self]

theorem read_write_of_ne (h : r ≠ reg) : (σ.write reg value).read r = σ.read r := by
  rw [read, read, write, Function.update_of_ne h]

end Contents

/-! ## Native instructions -/

/-- What instructions with two source registers compute. -/
def registerForms : List (Opcode × (BitVec 32 → BitVec 32 → BitVec 32)) :=
  [(Op.slt.opcode, fun x y => bit 32 (x.slt y)), (Op.sltu.opcode, fun x y => bit 32 (x.ult y)),
    (Op.xor.opcode, fun x y => x ^^^ y)]

/-- What instructions with a source register and a constant compute. -/
def constantForms : List (Opcode × (BitVec 32 → BitVec 32 → BitVec 32)) :=
  [(Op.slti.opcode, fun x y => bit 32 (x.slt y)), (Op.sltiu.opcode, fun x y => bit 32 (x.ult y)),
    (Op.xori.opcode, fun x y => x ^^^ y)]

/-- What an instruction does.  Constants have 12 bits and are extended with their sign, but for the
ones that `li` loads. -/
def step (i : Instruction) (σ : Contents) : Option Contents :=
  match (i.operands.map (·.kind) : List Operand.Kind) with
  | [.physicalReg rd, .immediate v] =>
    if i.opcode = Op.li.opcode ∧ -2 ^ 31 ≤ v ∧ v < 2 ^ 32 then some (σ.write rd (.ofInt 32 v))
    else none
  | [.physicalReg rd, .physicalReg rs, .physicalReg rt] =>
    (registerForms.lookup i.opcode).map fun word => σ.write rd (word (σ.read rs) (σ.read rt))
  | [.physicalReg rd, .physicalReg rs, .immediate v] =>
    if Word.fitsSigned v 12 then
      (constantForms.lookup i.opcode).map fun word => σ.write rd (word (σ.read rs) (.ofInt 32 v))
    else none
  | _ => none

section Step

variable {i : Instruction} {rd rs rt : RegId} {v : Int}
  {word : BitVec 32 → BitVec 32 → BitVec 32} (σ : Contents)

theorem step_load (hop : i.opcode = Op.li.opcode)
    (hkinds : i.operands.map (·.kind) = [.physicalReg rd, .immediate v])
    (hv : -2 ^ 31 ≤ v ∧ v < 2 ^ 32) : step i σ = some (σ.write rd (.ofInt 32 v)) := by
  rw [step, hkinds]
  exact if_pos ⟨hop, hv⟩

theorem step_register (hword : registerForms.lookup i.opcode = some word)
    (hkinds : i.operands.map (·.kind) = [.physicalReg rd, .physicalReg rs, .physicalReg rt]) :
    step i σ = some (σ.write rd (word (σ.read rs) (σ.read rt))) := by
  rw [step, hkinds]
  show (registerForms.lookup i.opcode).map _ = _
  rw [hword]
  rfl

theorem step_constant (hword : constantForms.lookup i.opcode = some word)
    (hkinds : i.operands.map (·.kind) = [.physicalReg rd, .physicalReg rs, .immediate v])
    (hv : Word.fitsSigned v 12) :
    step i σ = some (σ.write rd (word (σ.read rs) (.ofInt 32 v))) := by
  rw [step, hkinds]
  show (if Word.fitsSigned v 12 then (constantForms.lookup i.opcode).map _ else none) = _
  rw [if_pos hv, hword]
  rfl

end Step

def run (is : List Instruction) (σ : Contents) : Option Contents :=
  is.foldlM (fun σ i => step i σ) σ

/-! ## Elementary code under an assignment -/

section Perform

variable (home : RegId → RegId)

/-- The register that an operand stands for. -/
def place (o : Operand) : RegId :=
  match o.kind with
  | .physicalReg r => r
  | .virtualReg r | .parameter r => home r
  | _ => zero

/-- The word that an operand stands for. -/
def value (σ : Contents) (o : Operand) : BitVec 32 :=
  match o.kind with
  | .immediate v => .ofInt 32 v
  | _ => σ.read (place home o)

/-- What an elementary instruction does. -/
def perform (i : Instruction) (σ : Contents) : Contents :=
  match i.operands with
  | [dest, imm] => σ.write (place home dest) (value home σ imm)
  | [dest, lhs, rhs] =>
    σ.write (place home dest) (((word? i).getD fun x _ => x) (value home σ lhs) (value home σ rhs))
  | _ => σ

/-- What elementary instructions do one after another. -/
def performAll (is : List Instruction) (σ : Contents) : Contents :=
  is.foldl (fun σ i => perform home i σ) σ

/-- The registers hold the same but for the homes of ids in a range. -/
def Agree (next next' : RegId) (σ τ : Contents) : Prop :=
  ∀ reg, (∀ t, next ≤ t → t < next' → reg ≠ home t) → σ.read reg = τ.read reg

end Perform

section

variable {home : RegId → RegId} {next next' used : Nat} {σ τ υ : Contents} {i : Instruction}
  {is js new : List Instruction} {o dest lhs rhs : Operand}
  {word : BitVec 32 → BitVec 32 → BitVec 32}

theorem perform_constant {imm : Operand} (hoperands : i.operands = [dest, imm]) (σ : Contents) :
    perform home i σ = σ.write (place home dest) (value home σ imm) := by
  rw [perform, hoperands]

theorem perform_compute (hword : word? i = some word) (hoperands : i.operands = [dest, lhs, rhs])
    (σ : Contents) : perform home i σ =
      σ.write (place home dest) (word (value home σ lhs) (value home σ rhs)) := by
  rw [perform, hoperands, hword]
  rfl

theorem performAll_append (is js : List Instruction) (σ : Contents) :
    performAll home (is ++ js) σ = performAll home js (performAll home is σ) :=
  List.foldl_append

namespace Agree

theorem refl (σ : Contents) : Agree home next next' σ σ := fun _ _ => rfl

theorem trans (h : Agree home next next' σ τ) (h' : Agree home next next' τ υ) :
    Agree home next next' σ υ := fun r hr => (h r hr).trans (h' r hr)

theorem mono {m m' : Nat} (h : Agree home next next' σ τ) (hm : m ≤ next) (hm' : next' ≤ m') :
    Agree home m m' σ τ := fun r hr => h r fun t ht ht' => hr t (hm.trans ht) (ht'.trans_le hm')

theorem write (h : Agree home next next' σ τ) (reg : RegId) (v : BitVec 32) :
    Agree home next next' (σ.write reg v) (τ.write reg v) := by
  intro r hr
  by_cases hreg : r = reg
  · subst hreg
    rw [Contents.read, Contents.read, Contents.write, Contents.write, Function.update_self,
      Function.update_self]
  · rw [Contents.read_write_of_ne hreg, Contents.read_write_of_ne hreg, h r hr]

theorem write_new (v : BitVec 32) : Agree home next (next + 1) (σ.write (home next) v) σ :=
  fun _ hr => Contents.read_write_of_ne (hr next (Nat.le_refl next) (Nat.lt_succ_self next))

theorem value (h : Agree home next next' σ τ)
    (ho : ∀ t, next ≤ t → t < next' → place home o ≠ home t) :
    value home σ o = value home τ o := by
  rw [Riscv.value, Riscv.value]
  split
  · rfl
  · exact h _ ho

theorem perform (h : Agree home next next' σ τ)
    (hi : ∀ o ∈ i.operands.tail, ∀ t, next ≤ t → t < next' → place home o ≠ home t) :
    Agree home next next' (perform home i σ) (perform home i τ) := by
  rw [Riscv.perform, Riscv.perform]
  split
  · next dest imm hoperands =>
    rw [hoperands] at hi
    rw [h.value (hi imm (by simp))]
    exact h.write _ _
  · next dest lhs rhs hoperands =>
    rw [hoperands] at hi
    rw [h.value (hi lhs (by simp)), h.value (hi rhs (by simp))]
    exact h.write _ _
  · exact h

theorem performAll (h : Agree home next next' σ τ)
    (his : ∀ i ∈ is, ∀ o ∈ i.operands.tail, ∀ t, next ≤ t → t < next' → place home o ≠ home t) :
    Agree home next next' (performAll home is σ) (performAll home is τ) := by
  induction is generalizing σ τ with
  | nil => exact h
  | cons i is ih =>
    rw [List.forall_mem_cons] at his
    exact ih (h.perform his.1) his.2

end Agree

/-! ## Legalization keeps what code does -/

theorem place_virtualReg (r : RegId) (ty : LowType) : place home (.virtualReg r ty) = home r := rfl

theorem value_immediate (v : Int) (ty : LowType) (σ : Contents) :
    value home σ (.immediate v ty) = .ofInt 32 v := rfl

theorem value_zero (ty : LowType) (σ : Contents) : value home σ (.physicalReg zero ty) = 0 :=
  Contents.read_zero

theorem value_new {ty : LowType} (hzero : home next ≠ zero) (σ : Contents) (v : BitVec 32) :
    value home (σ.write (home next) v) (.virtualReg next ty) = v :=
  Contents.read_write hzero

/-- What takes the place of an elementary instruction does the same, up to new registers. -/
theorem agree_rewrite (hnew : Rewrite .riscv32 next i used new) (hi : Elementary i)
    (hzero : ∀ t, next ≤ t → t < next + used → home t ≠ zero)
    (hapart : ∀ o ∈ i.operands.tail, ∀ t, next ≤ t → t < next + used → place home o ≠ home t)
    (σ : Contents) :
    Agree home next (next + used) (performAll home new σ) (perform home i σ) := by
  obtain ⟨word, dest, lhs, rhs, hword, hoperands, -, -, -, hreduces⟩ := hi.reduces hnew
  rw [perform_compute hword hoperands]
  rw [hoperands] at hapart
  have hnonzero : used = 1 → home next ≠ zero := by
    rintro rfl
    exact hzero next (Nat.le_refl next) (Nat.lt_succ_self next)
  -- a new register leaves the sources alone
  have hsource : used = 1 → ∀ o ∈ [lhs, rhs], ∀ v,
      value home (σ.write (home next) v) o = value home σ o := by
    rintro rfl o ho v
    exact (Agree.write_new v).value (hapart o ho)
  cases hreduces with
  | @loadFirst j hconstant hword' hj =>
    show Agree home next (next + 1)
      (perform home j (σ.write (home next) (value home σ lhs))) _
    rw [perform_compute hword' hj, value_new (hnonzero rfl), hsource rfl rhs (by simp)]
    exact (Agree.write_new _).write _ _
  | @loadSecond j hconstant hword' hj =>
    show Agree home next (next + 1)
      (perform home j (σ.write (home next) (value home σ rhs))) _
    rw [perform_compute hword' hj, value_new (hnonzero rfl), hsource rfl lhs (by simp)]
    exact (Agree.write_new _).write _ _
  | @swap j swapped hword' hj hsame =>
    show Agree home next next (perform home j σ) _
    rw [perform_compute hword' hj, hsame]
    exact .refl _
  | @withOne j j' first second ty hty hfirst hj hsecond hj' hsame =>
    show Agree home next (next + 1) (perform home j' (perform home j σ)) _
    rw [perform_compute hsecond hj', perform_compute hfirst hj, place_virtualReg,
      value_new (hnonzero rfl), value_immediate, hsame]
    exact (Agree.write_new _).write _ _
  | @withZero j j' first second ty hty hfirst hj hsecond hj' hsame =>
    show Agree home next (next + 1) (perform home j' (perform home j σ)) _
    rw [perform_compute hsecond hj', perform_compute hfirst hj, place_virtualReg,
      value_new (hnonzero rfl), value_zero, hsame]
    exact (Agree.write_new _).write _ _

/-- The sources of what takes the place of an elementary instruction are sources of the
instruction, new registers, constants, or the register that is zero. -/
theorem place_of_rewrite (hnew : Rewrite .riscv32 next i used new) (hi : Elementary i)
    {P : RegId → Prop} (hsources : ∀ o ∈ i.operands.tail, P (place home o))
    (htemps : ∀ n < used, P (home (next + n))) (hzero : P zero) :
    ∀ j ∈ new, ∀ o ∈ j.operands.tail, P (place home o) := by
  obtain ⟨word, dest, lhs, rhs, -, hoperands, -, -, -, hreduces⟩ := hi.reduces hnew
  rw [hoperands, List.tail_cons, List.forall_mem_cons, List.forall_mem_singleton] at hsources
  obtain ⟨hlhs, hrhs⟩ := hsources
  have htemp : used = 1 → ∀ ty, P (place home (.virtualReg next ty)) := by
    rintro rfl ty
    exact htemps 0 Nat.one_pos
  have hone : ∀ ty, P (place home (.immediate 1 ty)) := fun _ => hzero
  have hpzero : ∀ ty, P (place home (.physicalReg zero ty)) := fun _ => hzero
  cases hreduces with
  | loadFirst hconstant hword hj => simp [loadImmediate, hj, hlhs, hrhs, htemp]
  | loadSecond hconstant hword hj => simp [loadImmediate, hj, hlhs, hrhs, htemp]
  | swap hword hj hsame => simp [hj, hlhs, hrhs]
  | withOne hty hfirst hj hsecond hj' hsame => simp [hj, hj', hlhs, hrhs, htemp, hone]
  | withZero hty hfirst hj hsecond hj' hsame => simp [hj, hj', hlhs, hrhs, htemp, hpzero]

/-- **Legalization keeps what elementary code does**, up to new registers. -/
theorem Becomes.agree (h : Becomes next is next' js) (his : ∀ i ∈ is, Elementary i)
    (hzero : ∀ t, next ≤ t → t < next' → home t ≠ zero)
    (hdistinct : ∀ t t', next ≤ t → t < t' → t' < next' → home t ≠ home t')
    (hapart : ∀ i ∈ is, ∀ o ∈ i.operands.tail, ∀ t, next ≤ t → t < next' →
      place home o ≠ home t) (σ : Contents) :
    Agree home next next' (performAll home js σ) (performAll home is σ) := by
  induction h generalizing σ with
  | nil => exact .refl σ
  | keep hlegal h ih =>
    rw [List.forall_mem_cons] at his hapart
    exact ih his.2 hzero hdistinct hapart.2 _
  | @expand next used next' i new is js hnew h ih =>
    rw [List.forall_mem_cons] at his hapart
    have hle := h.next_le
    have hsources : ∀ j ∈ new, ∀ o ∈ j.operands.tail, ∀ t, next + used ≤ t → t < next' →
        place home o ≠ home t := place_of_rewrite
      (P := fun reg => ∀ t, next + used ≤ t → t < next' → reg ≠ home t) hnew his.1
      (fun o ho t ht => hapart.1 o ho t (by omega))
      (fun n hn t ht ht' => hdistinct _ t (by omega) (by omega) ht')
      (fun t ht ht' => (hzero t (by omega) ht').symm)
    have hjs := ih (List.forall_mem_append.mpr ⟨his.1.rewrite hnew, his.2⟩)
      (fun t ht => hzero t (by omega)) (fun t t' ht => hdistinct t t' (by omega))
      (List.forall_mem_append.mpr ⟨hsources, fun j hj o ho t ht => hapart.2 j hj o ho t (by omega)⟩)
      σ
    rw [performAll_append] at hjs
    have hnew' := agree_rewrite hnew his.1 (fun t ht ht' => hzero t ht (by omega))
      (fun o ho t ht ht' => hapart.1 o ho t ht (by omega)) σ
    have his' : Agree home next (next + used) (performAll home is (performAll home new σ))
        (performAll home is (perform home i σ)) :=
      hnew'.performAll fun j hj o ho t ht ht' => hapart.2 j hj o ho t ht (by omega)
    exact (hjs.mono (by omega) (Nat.le_refl _)).trans (his'.mono (Nat.le_refl _) hle)

/-! ## Placement -/

theorem root_eq (reg : RegId) : registers.root reg = reg := by
  have hviews : ∀ r ∈ registers.file, r.views = [] := by decide +kernel
  have hnone : registers.file.find? (fun r => r.views.contains reg) = none :=
    List.find?_eq_none.mpr fun r hr => by simp [hviews r hr]
  rw [Registers.root, Registers.parent?, hnone]
  rfl

theorem withWidth_eq (reg : RegId) (bits : Nat) : registers.withWidth reg bits = reg := by
  have h : registers.root (registers.withWidth reg bits) = registers.root reg :=
    Arch.root_withWidth .riscv32 reg bits
  rwa [root_eq, root_eq] at h

variable (home) in
/-- An operand over the assigned registers. -/
def placed (o : Operand) : Operand :=
  if o.isRegLike then o.setPhysical (place home o) else o

variable (home) in
/-- An instruction over the assigned registers. -/
def withHomes (i : Instruction) : Instruction := i.withOperands (i.operands.map (placed home))

theorem kind_placed (h : o.isRegLike) : (placed home o).kind = .physicalReg (place home o) := by
  rw [placed, if_pos h]
  rfl

theorem placed_of_isImmediate (h : o.isImmediate) : placed home o = o := by
  refine if_neg ?_
  obtain ⟨kind, ty, regClass⟩ := o
  cases kind with
  | immediate v => exact Bool.false_ne_true
  | _ => cases h

theorem Elementary.operand (h : Elementary i) : ∀ o ∈ i.operands, o.isRegLike ∨ o.isImmediate := by
  intro o ho
  cases h with
  | constant hop hoperands hdest himm hconstant =>
    rw [hoperands, List.mem_pair] at ho
    rcases ho with rfl | rfl
    exacts [.inl hdest.kind, .inr hconstant]
  | compute hword hoperands hdest hlhs hrhs =>
    simp only [hoperands, List.mem_cons, List.not_mem_nil, or_false] at ho
    rcases ho with rfl | rfl | rfl
    exacts [.inl hdest.kind, hlhs.kind, hrhs.kind]

section Assigned

variable {assigned : List (RegId × RegId)}

theorem placeOperand_eq (name : String) (ho : o.isRegLike ∨ o.isImmediate)
    (hassigned : ∀ r, o.unallocated? = some r → assigned.lookup r = some (home r)) :
    Function.placeOperand riscv32 name assigned o = .ok (placed home o) := by
  have hlookup : ∀ r, o.unallocated? = some r →
      Function.assignedReg name assigned r = .ok (home r) := by
    intro r hr
    rw [Function.assignedReg, hassigned r hr]
    rfl
  obtain ⟨kind, ty, regClass⟩ := o
  cases kind with
  | virtualReg r | parameter r =>
    rw [Function.placeOperand]
    dsimp only
    rw [hlookup r rfl, ok_bind]
    show Except.ok (Operand.setPhysical _ (registers.withWidth (home r) _)) = _
    rw [withWidth_eq]
    rfl
  | physicalReg r | immediate v => rfl
  | _ => rcases ho with ho | ho <;> cases ho

theorem placeInstruction_eq (g : Function) (hi : Elementary i)
    (hassigned : i.Within fun r => assigned.lookup r = some (home r)) :
    g.placeInstruction riscv32 assigned i = .ok (withHomes home i) := by
  have hoperands : i.operands.mapM (Function.placeOperand riscv32 g.name assigned) =
      .ok (i.operands.map (placed home)) :=
    mapM_eq_ok_map fun o ho => placeOperand_eq g.name (hi.operand o ho) (hassigned o ho)
  have hmemory : (withHomes home i).memoryIndex? = none := by
    refine List.findIdx?_eq_none_iff.mpr fun o' ho' => ?_
    obtain ⟨o, ho, rfl⟩ := List.mem_map.mp ho'
    rcases hi.operand o ho with hkind | hkind
    · simp [Operand.isMemory, Operand.isStack, kind_placed hkind]
    · rw [placed_of_isImmediate hkind]
      exact Operand.isPlace_of_isImmediate hkind
  rw [Function.placeInstruction, hoperands, ok_bind]
  simp only [withHomes] at hmemory ⊢
  rw [hmemory]
  rfl

end Assigned

/-! ## Selection -/

/-- The native instructions that elementary code turns into. -/
def nativeForms : List Op := [.slt, .slti, .sltu, .sltiu, .xor, .xori, .li]

theorem select_compare {site : Site} {second : Operand} {r : Relation} {constant inRegister : Op}
    (hforms : r = .lt ∧ constant = .slti ∧ inRegister = .slt ∨
      r = .ltu ∧ constant = .sltiu ∧ inRegister = .sltu)
    (hrelation : site.instruction.relation = some r) (hsecond : site.operand 2 = .ok second) :
    select site .cmp = .ok ⟨site.instruction.setOpcode
      (if second.isImmediate then constant else inRegister).opcode, []⟩ := by
  show selectCompare site = _
  rw [selectCompare, hsecond, ok_bind, hrelation]
  rcases hforms with ⟨rfl, rfl, rfl⟩ | ⟨rfl, rfl, rfl⟩ <;> cases second.isImmediate <;> rfl

theorem select_exclusiveOr {site : Site} {second : Operand} (hsecond : site.operand 2 = .ok second)
    (hkind : second.isPhysical ∨ second.isImmediate) :
    select site .xor = .ok ⟨site.instruction.setOpcode
      (if second.isImmediate then Op.xori else Op.xor).opcode, []⟩ := by
  show selectBinary site .xor = _
  rw [selectBinary, hsecond]
  obtain ⟨kind, ty, regClass⟩ := second
  cases kind with
  | physicalReg r | immediate v => rfl
  | _ => rcases hkind with hkind | hkind <;> cases hkind

/-- The native forms of a legal compare or exclusive or, with a constant and with a register as the
second source. -/
theorem exists_forms (hword : word? i = some word)
    (hless : i.generic? = some .cmp → i.relation = some .lt ∨ i.relation = some .ltu) :
    ∃ constant ∈ nativeForms, ∃ inRegister ∈ nativeForms, ∃ op, i.opcode = .generic op ∧
      constantForms.lookup constant.opcode = some word ∧
      registerForms.lookup inRegister.opcode = some word ∧
      ∀ (site : Site) (second : Operand), site.instruction.relation = i.relation →
        site.operand 2 = .ok second → second.isPhysical ∨ second.isImmediate →
        select site op = .ok ⟨site.instruction.setOpcode
          (if second.isImmediate then constant else inRegister).opcode, []⟩ := by
  rcases generic?_of_word? hword with ⟨hop, r, hrelation, rfl⟩ | ⟨hop, rfl⟩
  · have hcode := Instruction.generic?_eq_some hop
    rw [hrelation] at hless ⊢
    rcases hless hop with hr | hr <;> cases hr
    · exact ⟨.slti, by decide, .slt, by decide, .cmp, hcode, rfl, rfl,
        fun site second hr h _ => select_compare (.inl ⟨rfl, rfl, rfl⟩) hr h⟩
    · exact ⟨.sltiu, by decide, .sltu, by decide, .cmp, hcode, rfl, rfl,
        fun site second hr h _ => select_compare (.inr ⟨rfl, rfl, rfl⟩) hr h⟩
  · exact ⟨.xori, by decide, .xor, by decide, .xor, Instruction.generic?_eq_some hop, rfl, rfl,
      fun site second _ h hkind => select_exclusiveOr h hkind⟩

theorem value_of_immediate {v : Int} (h : o.immediate? = some v) (σ : Contents) :
    value home σ o = .ofInt 32 v := by
  obtain ⟨kind, ty, regClass⟩ := o
  cases kind <;> cases h
  rfl

theorem value_of_isRegLike (h : o.isRegLike) (σ : Contents) :
    value home σ o = σ.read (place home o) := by
  obtain ⟨kind, ty, regClass⟩ := o
  cases kind with
  | immediate v => cases h
  | _ => rfl

theorem kind_of_immediate? {v : Int} (h : o.immediate? = some v) : o.kind = .immediate v := by
  obtain ⟨kind, ty, regClass⟩ := o
  cases kind <;> cases h
  rfl

theorem map_kind_withHomes (opcode : Opcode) : ((withHomes home i).setOpcode
    opcode).operands.map (·.kind) = i.operands.map fun o => (placed home o).kind := by
  show (i.operands.map (placed home)).map (·.kind) = _
  rw [List.map_map]
  rfl

variable (home) in
/-- Selection turns the instruction, over the assigned registers, into a native one that does the
same. -/
def HasNative (i : Instruction) : Prop :=
  ∃ native ∈ nativeForms, ∃ op, i.opcode = .generic op ∧
    (∀ site : Site, site.instruction = withHomes home i →
      select site op = .ok ⟨site.instruction.setOpcode native.opcode, []⟩) ∧
    ∀ σ, step ((withHomes home i).setOpcode native.opcode) σ = some (perform home i σ)

theorem hasNative_constant {imm : Operand} (hop : i.generic? = some .loadImm)
    (hoperands : i.operands = [dest, imm]) (hdest : dest.isRegLike) (himm : IsValue imm)
    (hconstant : imm.isImmediate) : HasNative home i := by
  obtain ⟨v, hv⟩ := Operand.isImmediate_iff.mp hconstant
  refine ⟨.li, by decide, .loadImm, Instruction.generic?_eq_some hop, fun site _ => rfl,
    fun σ => ?_⟩
  have hkinds : ((withHomes home i).setOpcode Op.li.opcode).operands.map (·.kind) =
      [.physicalReg (place home dest), .immediate v] := by
    rw [map_kind_withHomes, hoperands]
    simp [kind_placed hdest, placed_of_isImmediate hconstant, kind_of_immediate? hv]
  rw [step_load σ rfl hkinds (himm.word v hv), perform_constant hoperands, value_of_immediate hv]

theorem hasNative_compute (hword : word? i = some word) (hoperands : i.operands = [dest, lhs, rhs])
    (hdest : dest.isRegLike) (hlhs : lhs.isRegLike) (hrhs : rhs.isRegLike ∨ rhs.isImmediate)
    (hless : i.generic? = some .cmp → i.relation = some .lt ∨ i.relation = some .ltu)
    (hshort : ∀ v, rhs.immediate? = some v → Word.fitsSigned v 12) : HasNative home i := by
  obtain ⟨constant, hconstant, inRegister, hregister, op, hop, hconstantForm, hregisterForm,
    hselect⟩ := exists_forms hword hless
  have hsecond : ∀ site : Site, site.instruction = withHomes home i →
      site.operand 2 = .ok (placed home rhs) := by
    intro site hsite
    rw [Site.operand, hsite, Instruction.operand?]
    show orFail _ (i.operands.map (placed home))[2]? = _
    rw [hoperands]
    rfl
  have hkinds : ∀ opcode, ((withHomes home i).setOpcode opcode).operands.map (·.kind) =
      [.physicalReg (place home dest), .physicalReg (place home lhs), (placed home rhs).kind] := by
    intro opcode
    rw [map_kind_withHomes, hoperands]
    simp [kind_placed hdest, kind_placed hlhs]
  rcases hrhs with hrhs | hrhs
  · rw [kind_placed hrhs] at hkinds
    have hphysical : (placed home rhs).isPhysical ∧ (placed home rhs).isImmediate = false := by
      simp [Operand.isPhysical, Operand.isImmediate, kind_placed hrhs]
    refine ⟨inRegister, hregister, op, hop, fun site hsite => ?_, fun σ => ?_⟩
    · rw [hselect site _ (by rw [hsite]; rfl) (hsecond site hsite) (.inl hphysical.1),
        hphysical.2, if_neg Bool.false_ne_true]
    · rw [step_register σ hregisterForm (hkinds inRegister.opcode),
        perform_compute hword hoperands, value_of_isRegLike hlhs, value_of_isRegLike hrhs]
  · obtain ⟨v, hv⟩ := Operand.isImmediate_iff.mp hrhs
    have hsame : placed home rhs = rhs := placed_of_isImmediate hrhs
    rw [hsame, kind_of_immediate? hv] at hkinds
    refine ⟨constant, hconstant, op, hop, fun site hsite => ?_, fun σ => ?_⟩
    · rw [hselect site _ (by rw [hsite]; rfl) (hsecond site hsite) (.inr (by rwa [hsame])),
        hsame, hrhs, if_pos rfl]
    · rw [step_constant σ hconstantForm (hkinds constant.opcode) (hshort v hv),
        perform_compute hword hoperands, value_of_isRegLike hlhs, value_of_immediate hv]

variable (home) in
/-- **Each legal elementary instruction turns into one native instruction** that does the same. -/
theorem Elementary.hasNative (h : Elementary i)
    (hlegal : ∀ f b k, f.instruction? b k = some i → isLegal f b k) : HasNative home i := by
  have hwide := h.not_isTooWide
  cases h with
  | constant hop hoperands hdest himm hconstant =>
    exact hasNative_constant hop hoperands hdest.kind himm hconstant
  | @compute word dest lhs rhs hword hoperands hdest hlhs hrhs =>
    -- legality is a matter of the instruction alone, so it may stand anywhere
    let alone : Function := { name := "", blocks := [⟨"", [i]⟩] }
    obtain ⟨hfirst, hless, hshort⟩ :=
      (isLegal_compute_iff (f := alone) rfl hword hoperands hwide).mp (hlegal alone 0 0 rfl)
    exact hasNative_compute hword hoperands hdest.kind
      (hlhs.kind.resolve_right (by simp [hfirst])) hrhs.kind hless hshort

variable (home) in
/-- Legal elementary code turns into native code that does the same. -/
theorem exists_selectsTo (his : ∀ i ∈ is, Elementary i ∧
      ∀ f b k, f.instruction? b k = some i → isLegal f b k) :
    ∃ native, Function.SelectsTo riscv32 (is.map (withHomes home)) native ∧
      (∀ j ∈ native, ∃ op ∈ nativeForms, j.opcode = op.opcode) ∧
      ∀ σ, run native σ = some (performAll home is σ) := by
  induction is with
  | nil => exact ⟨[], .nil riscv32, List.forall_mem_nil _, fun σ => rfl⟩
  | cons i is ih =>
    rw [List.forall_mem_cons] at his
    obtain ⟨native, hnative, op, hop, hselect, hstep⟩ := his.1.1.hasNative home his.1.2
    obtain ⟨rest, hrest, hforms, hrun⟩ := ih his.2
    have hselected : ∀ op ∈ nativeForms, op.opcode.isSelected := by decide
    refine ⟨(withHomes home i).setOpcode native.opcode :: rest,
      hrest.cons hop (fun f b k => hselect _ rfl) (hselected native hnative),
      List.forall_mem_cons.mpr ⟨⟨native, hnative, rfl⟩, hforms⟩, fun σ => ?_⟩
    show (step _ σ).bind (run rest) = _
    rw [hstep]
    exact hrun _

end

/-! ## Compares -/

/-- The assignment of registers to the ids of an instruction and to new ids: the new ones get
registers of their own. -/
structure Assigns (assigned : List (RegId × RegId)) (home : RegId → RegId) (next next' : Nat)
    (i : Instruction) : Prop where
  named : i.Within fun r => assigned.lookup r = some (home r)
  new : ∀ t, next ≤ t → t < next' → assigned.lookup t = some (home t)
  ne_zero : ∀ t, next ≤ t → t < next' → home t ≠ zero
  distinct : ∀ t t', next ≤ t → t < t' → t' < next' → home t ≠ home t'
  apart : ∀ o ∈ i.operands, ∀ t, next ≤ t → t < next' → place home o ≠ home t

/-- **Compares compute their relation.**  Wherever a compare of registers and constants stands,
legalization turns it into code.  Once all ids have registers, where new ids share theirs with
nothing and the destination may share with a source, selection turns this code into native
instructions that leave one in the destination if the relation holds, for the words that the sources
had before, and zero otherwise. -/
theorem exists_compares {f : Function} {b k : Nat} {i : Instruction} {r : Relation}
    {dest lhs rhs : Operand} (hi : f.instruction? b k = some i) (hop : i.generic? = some .cmp)
    (hrelation : i.relation = some r) (hoperands : i.operands = [dest, lhs, rhs])
    (hdest : IsDestination dest) (hlhs : IsValue lhs) (hrhs : IsValue rhs)
    (hroom : f.nextId + 4 < 2 ^ 32) :
    ∃ g code, f.LegalizesTo riscv32 b k [i] code g ∧ g.nextId ≤ f.nextId + 4 ∧
      ∀ assigned home, Assigns assigned home f.nextId g.nextId i → place home dest ≠ zero →
        ∃ placed native, code.mapM (g.placeInstruction riscv32 assigned) = .ok placed ∧
          Function.SelectsTo riscv32 placed native ∧
          (∀ j ∈ native, ∃ op ∈ nativeForms, j.opcode = op.opcode) ∧
          ∀ σ, ∃ σ', run native σ = some σ' ∧
            σ'.read (place home dest) = bit 32 (r.holds (value home σ lhs) (value home σ rhs)) ∧
            ∀ reg ≠ place home dest, (∀ t, f.nextId ≤ t → t < g.nextId → reg ≠ home t) →
              σ'.read reg = σ.read reg := by
  have hword := word?_cmp hop hrelation
  have his : ∀ j ∈ [i], Elementary j := by
    rw [List.forall_mem_singleton]
    exact .compute hword hoperands hdest hlhs hrhs
  have hweight : weight [i] ≤ 5 := by
    have hgrowth := growth_compare_le hoperands hop hrelation hdest
    rw [weight_cons, weight_nil]
    omega
  obtain ⟨g, code, hbecomes, hlegalizes⟩ := exists_becomes (Nat.le_refl _)
    (Function.hasAt_singleton hi) his (by rw [List.length_singleton]; omega)
  refine ⟨g, code, hlegalizes, ?_, fun assigned home hassigned hdest' => ?_⟩
  · have hnext := hbecomes.next_le_weight
    rw [List.length_singleton] at hnext
    omega
  have hcode := hbecomes.elementary his
  have hwithin := hbecomes.within (List.forall_mem_singleton.mpr hassigned.named) hassigned.new
  obtain ⟨native, hselects, hforms, hrun⟩ := exists_selectsTo home hcode
  refine ⟨code.map (withHomes home), native,
    mapM_eq_ok_map fun j hj => placeInstruction_eq g (hcode j hj).1 (hwithin j hj), hselects,
    hforms, fun σ => ⟨_, hrun σ, ?_⟩⟩
  have hagree := hbecomes.agree his hassigned.ne_zero hassigned.distinct
    (List.forall_mem_singleton.mpr fun o ho => hassigned.apart o (List.mem_of_mem_tail ho)) σ
  have hperform : performAll home [i] σ = σ.write (place home dest)
      (bit 32 (r.holds (value home σ lhs) (value home σ rhs))) := perform_compute hword hoperands σ
  rw [hperform] at hagree
  refine ⟨?_, fun reg hreg hnew => ?_⟩
  · rw [hagree _ (hassigned.apart dest (by simp [hoperands])), Contents.read_write hdest']
  · rw [hagree reg hnew, Contents.read_write_of_ne hreg]

/-- A register is compared with a constant that is too long for an instruction. -/
def limited : Instruction :=
  compare .le (.virtualReg 0 (.integer 1)) (.immediate 70000 (.integer 32))
    (.virtualReg 1 (.integer 32))

/-- The result goes to the register of the source, and new ids get the registers from `5` on. -/
theorem assigns_limited {next : Nat} (hbound : next ≤ 6) :
    Assigns [(0, 10), (1, 10), (2, 5), (3, 6), (4, 7), (5, 8)]
      (fun t => if t < 2 then 10 else t + 3) 2 next limited := by
  generalize hhome : (fun t => if t < 2 then 10 else t + 3) = home
  have hold : ∀ t < 2, home t = 10 := fun t ht => hhome ▸ if_pos ht
  have hnew : ∀ t, 2 ≤ t → home t = t + 3 := fun t ht => hhome ▸ if_neg (Nat.not_lt.mpr ht)
  have hoperands : limited.operands = [.virtualReg 0 (.integer 1), .immediate 70000 (.integer 32),
      .virtualReg 1 (.integer 32)] := rfl
  refine ⟨?_, fun t ht ht' => ?_, fun t ht _ => ?_, fun t t' ht htt' _ => ?_, ?_⟩
  · intro o ho r hr
    simp only [hoperands, List.mem_cons, List.not_mem_nil, or_false] at ho
    rcases ho with rfl | rfl | rfl <;> cases hr
    · rw [hold 0 (by decide)]
      rfl
    · rw [hold 1 (by decide)]
      rfl
  · rw [hnew t ht]
    have hcases : t = 2 ∨ t = 3 ∨ t = 4 ∨ t = 5 := by omega
    rcases hcases with rfl | rfl | rfl | rfl <;> rfl
  · rw [hnew t ht]
    exact Nat.succ_ne_zero _
  · rw [hnew t ht, hnew t' (ht.trans (Nat.le_of_lt htt'))]
    exact fun h => Nat.ne_of_lt htt' (Nat.add_right_cancel h)
  · intro o ho t ht ht'
    simp only [hoperands, List.mem_cons, List.not_mem_nil, or_false] at ho
    rw [hnew t ht]
    rcases ho with rfl | rfl | rfl
    · rw [place_virtualReg, hold 0 (by decide)]
      exact Nat.ne_of_gt (show t + 3 < 10 by omega)
    · exact (Nat.succ_ne_zero _).symm
    · rw [place_virtualReg, hold 1 (by decide)]
      exact Nat.ne_of_gt (show t + 3 < 10 by omega)

theorem exists_compares_limited : ∃ g code placed native,
    Function.LegalizesTo riscv32
      { name := "limited", blocks := [⟨"entry", [limited]⟩], nextId := 2 } 0 0 [limited] code g ∧
    code.mapM (g.placeInstruction riscv32 [(0, 10), (1, 10), (2, 5), (3, 6), (4, 7), (5, 8)]) =
      .ok placed ∧
    Function.SelectsTo riscv32 placed native ∧
    ∀ σ, ∃ σ', run native σ = some σ' ∧
      σ'.read 10 = bit 32 ((70000 : BitVec 32).sle (σ.read 10)) := by
  let f : Function := { name := "limited", blocks := [⟨"entry", [limited]⟩], nextId := 2 }
  have hconstant : IsValue (.immediate 70000 (.integer 32)) := by
    refine ⟨.inr rfl, Nat.le_refl 32, ?_⟩
    rintro v ⟨⟩
    decide
  have hregister : IsDestination (.virtualReg 1 (.integer 32)) := ⟨rfl, Nat.le_refl 32⟩
  obtain ⟨g, code, hlegalizes, hnext, hcode⟩ := exists_compares (f := f) (b := 0) (k := 0)
    (i := limited) rfl rfl rfl rfl ⟨rfl, by decide⟩ hconstant (isValue_register hregister)
    (by decide)
  obtain ⟨placed, native, hplaced, hselects, -, hrun⟩ :=
    hcode _ _ (assigns_limited hnext) (by decide)
  refine ⟨g, code, placed, native, hlegalizes, hplaced, hselects, fun σ => ?_⟩
  obtain ⟨σ', hσ', hread, -⟩ := hrun σ
  exact ⟨σ', hσ', hread⟩

end Target.Riscv

end Retarget
