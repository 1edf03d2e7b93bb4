import Retarget.Proofs.Convention.Named
import Retarget.Proofs.Native.Processor

/-!
# Addresses of symbols in native code

Code that takes the address of a symbol and passes it on runs over what the full-width registers
hold.  The address comes in two parts, which add up to it (`AArch64.page_add_pageOffset`,
`Riscv.upper_add_lower`), and moves hand it on.  Of other instructions only the register that they
write is known, so they may leave anything there, and a call anywhere (`Arch.Steps`).

Code puts an address into a register if it can run from every state and every run ends with the
address there (`Arch.Puts`), whatever the symbols stand for.
-/

namespace Retarget

open Machine

namespace Target.AArch64

/-! ## AArch64 -/

/-- The start of the page of an address. -/
def page (address : BitVec 64) : BitVec 64 := address >>> 12 <<< 12

def pageOffset (address : BitVec 64) : BitVec 64 := (address.setWidth 12).setWidth 64

theorem page_add_pageOffset (address : BitVec 64) : page address + pageOffset address = address := by
  have hlt := address.isLt
  apply BitVec.eq_of_toNat_eq
  simp only [page, pageOffset, BitVec.toNat_add, BitVec.toNat_shiftLeft, BitVec.toNat_ushiftRight,
    BitVec.toNat_setWidth, Nat.shiftRight_eq_div_pow, Nat.shiftLeft_eq]
  omega

/-- The symbol whose offset in its page the name stands for. -/
def offsetOf? (name : String) : Option String :=
  (":lo12:".toList.isPrefixOf? name.toList).map String.ofList

theorem offsetOf?_lo12 (name : String) : offsetOf? (":lo12:" ++ name) = some name := by
  rw [offsetOf?, String.toList_append]
  exact congrArg some String.ofList_toList

/-- The number that an instruction computes, where this is known: half of the address of a symbol, or
what it moves.  A move between general-purpose registers of 32 bits clears the upper half, and one
between registers of two widths does not exist. -/
def computes? (symbols : String → BitVec 64) (i : Instruction) (σ : RegId → BitVec 64) :
    Option (BitVec 64) :=
  match nativeOp? i, (i.operands.map (·.kind) : List Operand.Kind) with
  | some .adrp, [.physicalReg rd, .global name] =>
    if IsGeneralPurpose rd ∧ widthOf rd = 64 then some (page (symbols name)) else none
  | some .addI, [.physicalReg rd, .physicalReg rn, .global part] =>
    if (IsGeneralPurpose rd ∧ widthOf rd = 64) ∧ IsGeneralPurpose rn ∧ widthOf rn = 64 then
      (offsetOf? part).map fun name => σ (registers.root rn) + pageOffset (symbols name)
    else none
  | some .movR, [.physicalReg rd, .physicalReg rn] =>
    if IsGeneralPurpose rd ∧ IsGeneralPurpose rn ∧ widthOf rd = widthOf rn then
      some (((σ (registers.root rn)).setWidth (widthOf rn)).setWidth 64)
    else none
  | some .fmov, [.physicalReg rd, .physicalReg rn] =>
    if (registers.isFloat rd ∧ widthOf rd = 64) ∧ IsGeneralPurpose rn ∧ widthOf rn = 64 then
      some (σ (registers.root rn))
    else none
  | _, _ => none

section computes

variable {symbols : String → BitVec 64} {i : Instruction} {rd rn : RegId} {name : String}
  {σ : RegId → BitVec 64}

theorem computes?_adrp (hop : nativeOp? i = some .adrp)
    (hkinds : i.operands.map (·.kind) = [.physicalReg rd, .global name])
    (hrd : IsGeneralPurpose rd ∧ widthOf rd = 64) :
    computes? symbols i σ = some (page (symbols name)) := by
  rw [computes?, hop, hkinds]
  exact if_pos hrd

theorem computes?_add (hop : nativeOp? i = some .addI)
    (hkinds : i.operands.map (·.kind) =
      [.physicalReg rd, .physicalReg rn, .global (":lo12:" ++ name)])
    (hrd : IsGeneralPurpose rd ∧ widthOf rd = 64) (hrn : IsGeneralPurpose rn ∧ widthOf rn = 64) :
    computes? symbols i σ = some (σ (registers.root rn) + pageOffset (symbols name)) := by
  rw [computes?, hop, hkinds]
  dsimp only
  rw [if_pos ⟨hrd, hrn⟩, offsetOf?_lo12]
  rfl

theorem computes?_move (hop : nativeOp? i = some .movR)
    (hkinds : i.operands.map (·.kind) = [.physicalReg rd, .physicalReg rn])
    (hrd : IsGeneralPurpose rd) (hrn : IsGeneralPurpose rn) (hwidth : widthOf rd = widthOf rn) :
    computes? symbols i σ =
      some (((σ (registers.root rn)).setWidth (widthOf rn)).setWidth 64) := by
  rw [computes?, hop, hkinds]
  exact if_pos ⟨hrd, hrn, hwidth⟩

theorem computes?_fmov (hop : nativeOp? i = some .fmov)
    (hkinds : i.operands.map (·.kind) = [.physicalReg rd, .physicalReg rn])
    (hrd : registers.isFloat rd) (hrn : IsGeneralPurpose rn ∧ widthOf rn = 64) :
    computes? symbols i σ = if widthOf rd = 64 then some (σ (registers.root rn)) else none := by
  rw [computes?, hop, hkinds]
  dsimp only
  simp only [hrd, hrn, true_and, and_true]

end computes

end Target.AArch64

namespace Target.Riscv

/-! ## RV32 -/

/-- The upper 20 bits of an address, rounded so that the lower part is a signed number. -/
def upper (address : BitVec 32) : BitVec 32 := (address + 0x800) >>> 12 <<< 12

/-- The lower 12 bits of an address, as a signed number. -/
def lower (address : BitVec 32) : BitVec 32 := (address.setWidth 12).signExtend 32

theorem upper_add_lower (address : BitVec 32) : upper address + lower address = address := by
  have hlt := address.isLt
  apply BitVec.eq_of_toNat_eq
  have hlower : (lower address).toNat =
      if address.toNat % 4096 < 2048 then address.toNat % 4096
      else 2 ^ 32 + address.toNat % 4096 - 4096 := by
    rw [lower, BitVec.toNat_signExtend, BitVec.toNat_setWidth, BitVec.toNat_setWidth,
      BitVec.msb_eq_decide]
    simp only [BitVec.toNat_setWidth, decide_eq_true_eq]
    split_ifs <;> omega
  have hround : (0x800 : BitVec 32).toNat = 2048 := rfl
  simp only [BitVec.toNat_add, hlower, upper, BitVec.toNat_shiftLeft, BitVec.toNat_ushiftRight,
    Nat.shiftRight_eq_div_pow, Nat.shiftLeft_eq, hround]
  split_ifs <;> omega

/-- The number that an instruction computes, where this is known: a part of the address of a symbol,
or what it moves. -/
def computes? (symbols : String → BitVec 32) (i : Instruction) (σ : RegId → BitVec 32) :
    Option (BitVec 32) :=
  match nativeOp? i, (i.operands.map (·.kind) : List Operand.Kind) with
  | some .luiHi, [.physicalReg rd, .global name] =>
    if rd ≠ zero then some (upper (symbols name)) else none
  | some .addiLo, [.physicalReg rd, .physicalReg rs, .global name] =>
    if rd ≠ zero ∧ rs ≠ zero then some (σ rs + lower (symbols name)) else none
  | some .mv, [.physicalReg rd, .physicalReg rs] =>
    if rd ≠ zero ∧ rs ≠ zero then some (σ rs) else none
  | _, _ => none

section computes

variable {symbols : String → BitVec 32} {i : Instruction} {rd rs : RegId} {name : String}
  {σ : RegId → BitVec 32}

theorem computes?_lui (hop : nativeOp? i = some .luiHi)
    (hkinds : i.operands.map (·.kind) = [.physicalReg rd, .global name]) (hrd : rd ≠ zero) :
    computes? symbols i σ = some (upper (symbols name)) := by
  rw [computes?, hop, hkinds]
  exact if_pos hrd

theorem computes?_addi (hop : nativeOp? i = some .addiLo)
    (hkinds : i.operands.map (·.kind) = [.physicalReg rd, .physicalReg rs, .global name])
    (hrd : rd ≠ zero) (hrs : rs ≠ zero) :
    computes? symbols i σ = some (σ rs + lower (symbols name)) := by
  rw [computes?, hop, hkinds]
  exact if_pos ⟨hrd, hrs⟩

theorem computes?_move (hop : nativeOp? i = some .mv)
    (hkinds : i.operands.map (·.kind) = [.physicalReg rd, .physicalReg rs])
    (hrd : rd ≠ zero) (hrs : rs ≠ zero) : computes? symbols i σ = some (σ rs) := by
  rw [computes?, hop, hkinds]
  exact if_pos ⟨hrd, hrs⟩

end computes

end Target.Riscv

namespace Arch

/-! ## Runs -/

/-- What the full-width registers hold. -/
abbrev Words (a : Arch) := RegId → BitVec a.target.pointerBits

/-- The number that an instruction computes, where this is known. -/
def computes? (a : Arch) (symbols : String → BitVec a.target.pointerBits) (i : Instruction)
    (σ : a.Words) : Option (BitVec a.target.pointerBits) :=
  match a with
  | aarch64 => Target.AArch64.computes? symbols i σ
  | riscv32 => Target.Riscv.computes? symbols i σ

def writes? (a : Arch) (i : Instruction) : Option RegId :=
  (i.def?.bind (·.reg?)).map a.target.registers.root

variable {a : Arch} {symbols : String → BitVec a.target.pointerBits} {i : Instruction}
  {is js : List Instruction} {σ σ' : a.Words} {reg source : RegId} {name : String}

/-- The instruction neither writes the register nor calls. -/
structure Keeps (a : Arch) (i : Instruction) (reg : RegId) : Prop where
  not_calls : a.calls i = false
  not_writes : a.writes? i ≠ some reg

/-- What an instruction may do: it changes at most the register that it writes, and puts there what
it computes.  What it calls may change all registers. -/
structure Steps (a : Arch) (symbols : String → BitVec a.target.pointerBits) (i : Instruction)
    (σ σ' : a.Words) : Prop where
  keeps : ∀ reg, a.Keeps i reg → σ' reg = σ reg
  computes : ∀ reg value, a.writes? i = some reg → a.computes? symbols i σ = some value →
    σ' reg = value

/-- What instructions may do one after another. -/
inductive Runs (a : Arch) (symbols : String → BitVec a.target.pointerBits) :
    List Instruction → a.Words → a.Words → Prop
  | nil (σ : a.Words) : Runs a symbols [] σ σ
  | cons {i : Instruction} {is : List Instruction} {σ σ₁ σ' : a.Words}
      (hfirst : a.Steps symbols i σ σ₁) (hrest : Runs a symbols is σ₁ σ') :
      Runs a symbols (i :: is) σ σ'

/-- From every state, the instruction leaves its number where it writes, and `leftover` if none is
known. -/
theorem exists_steps (a : Arch) (symbols : String → BitVec a.target.pointerBits) (i : Instruction)
    (σ : a.Words) (leftover : BitVec a.target.pointerBits) :
    ∃ σ', a.Steps symbols i σ σ' ∧
      ∀ reg, a.writes? i = some reg → σ' reg = (a.computes? symbols i σ).getD leftover := by
  refine ⟨fun reg => if a.writes? i = some reg then (a.computes? symbols i σ).getD leftover
    else σ reg, ⟨fun reg h => if_neg h.not_writes, fun reg value h hvalue => ?_⟩,
    fun reg h => if_pos h⟩
  rw [if_pos h, hvalue, Option.getD_some]

theorem exists_runs (a : Arch) (symbols : String → BitVec a.target.pointerBits)
    (is : List Instruction) (σ : a.Words) : ∃ σ', a.Runs symbols is σ σ' := by
  induction is generalizing σ with
  | nil => exact ⟨σ, .nil σ⟩
  | cons i is ih =>
    obtain ⟨σ₁, hfirst, -⟩ := a.exists_steps symbols i σ 0
    obtain ⟨σ', hrest⟩ := ih σ₁
    exact ⟨σ', .cons hfirst hrest⟩

namespace Runs

theorem append_iff :
    a.Runs symbols (is ++ js) σ σ' ↔ ∃ σ₁, a.Runs symbols is σ σ₁ ∧ a.Runs symbols js σ₁ σ' := by
  induction is generalizing σ with
  | nil => exact ⟨fun h => ⟨σ, .nil σ, h⟩, fun ⟨_, h, h'⟩ => by cases h; exact h'⟩
  | cons i is ih =>
    constructor
    · rintro (_ | ⟨hfirst, hrest⟩)
      obtain ⟨σ₁, his, hjs⟩ := ih.mp hrest
      exact ⟨σ₁, .cons hfirst his, hjs⟩
    · rintro ⟨σ₁, _ | ⟨hfirst, his⟩, hjs⟩
      exact .cons hfirst (ih.mpr ⟨σ₁, his, hjs⟩)

theorem keeps (h : a.Runs symbols is σ σ') (hkeeps : ∀ i ∈ is, a.Keeps i reg) :
    σ' reg = σ reg := by
  induction h with
  | nil => rfl
  | cons hfirst _ ih =>
    obtain ⟨hi, his⟩ := List.forall_mem_cons.mp hkeeps
    rw [ih his, hfirst.keeps reg hi]

end Runs

/-! ## Addresses in registers -/

/-- Code puts the address of a symbol into a register: from every state it runs, and all that it can
do ends with the address there. -/
def Puts (a : Arch) (code : List Instruction) (reg : RegId) (name : String) : Prop :=
  ∀ (symbols : String → BitVec a.target.pointerBits) (σ : a.Words),
    (∃ σ', a.Runs symbols code σ σ') ∧ ∀ σ', a.Runs symbols code σ σ' → σ' reg = symbols name

/-- The instruction moves all of a full-width register into another one. -/
structure Copies (a : Arch) (i : Instruction) (source reg : RegId) : Prop where
  writes : a.writes? i = some reg
  computes : ∀ symbols σ, a.computes? symbols i σ = some (σ source)

namespace Puts

theorem of_runs (h : ∀ symbols σ σ', a.Runs symbols is σ σ' → σ' reg = symbols name) :
    a.Puts is reg name :=
  fun symbols σ => ⟨a.exists_runs symbols is σ, h symbols σ⟩

theorem append_left (h : a.Puts js reg name) (is : List Instruction) :
    a.Puts (is ++ js) reg name := by
  refine .of_runs fun symbols σ σ' hrun => ?_
  obtain ⟨σ₁, -, hjs⟩ := Runs.append_iff.mp hrun
  exact (h symbols σ₁).2 σ' hjs

theorem append_right (h : a.Puts is reg name) (hjs : ∀ j ∈ js, a.Keeps j reg) :
    a.Puts (is ++ js) reg name := by
  refine .of_runs fun symbols σ σ' hrun => ?_
  obtain ⟨σ₁, his, hrest⟩ := Runs.append_iff.mp hrun
  rw [hrest.keeps hjs]
  exact (h symbols σ).2 σ₁ his

theorem copy (h : a.Puts is source name) (hi : a.Copies i source reg) :
    a.Puts (is ++ [i]) reg name := by
  refine .of_runs fun symbols σ σ' hrun => ?_
  obtain ⟨σ₁, his, _ | ⟨hstep, _ | _⟩⟩ := Runs.append_iff.mp hrun
  rw [hstep.computes reg _ hi.writes (hi.computes symbols σ₁)]
  exact (h symbols σ).2 σ₁ his

/-- Two instructions that compute parts of an address leave all of it in their register. -/
theorem pair {first second : Instruction} {part : BitVec a.target.pointerBits → BitVec _}
    {rest : BitVec a.target.pointerBits → BitVec _}
    (hfirst : a.writes? first = some reg) (hsecond : a.writes? second = some reg)
    (hpart : ∀ symbols σ, a.computes? symbols first σ = some (part (symbols name)))
    (hrest : ∀ symbols σ, a.computes? symbols second σ = some (σ reg + rest (symbols name)))
    (hsum : ∀ address, part address + rest address = address) :
    a.Puts [first, second] reg name := by
  refine .of_runs fun symbols σ σ' hrun => ?_
  obtain _ | ⟨hstep, _ | ⟨hstep', _ | _⟩⟩ := hrun
  rw [hstep'.computes reg _ hsecond (hrest symbols _), hstep.computes reg _ hfirst (hpart symbols σ),
    hsum]

theorem succ_ne (a : Arch) (x : BitVec a.target.pointerBits) : x + 1 ≠ x := by
  cases a with
  | aarch64 => exact (by intro x; bv_omega : ∀ x : BitVec 64, x + 1 ≠ x) x
  | riscv32 => exact (by intro x; bv_omega : ∀ x : BitVec 32, x + 1 ≠ x) x

/-- The address is lost if the last instruction that writes the register does not compute it, for
some symbols. -/
theorem not_of_loses (hi : a.writes? i = some reg) (hjs : ∀ j ∈ js, a.Keeps j reg)
    (hloses : ∃ symbols, ∀ σ : a.Words, a.computes? symbols i σ ≠ some (symbols name)) :
    ¬a.Puts (is ++ i :: js) reg name := by
  intro h
  obtain ⟨symbols, hloses⟩ := hloses
  obtain ⟨σ, his⟩ := a.exists_runs symbols is fun _ => 0
  -- where nothing is known, the instruction leaves another number than the address
  obtain ⟨σ₁, hstep, hleft⟩ := a.exists_steps symbols i σ (symbols name + 1)
  obtain ⟨σ', hrest⟩ := a.exists_runs symbols js σ₁
  have hend := (h symbols _).2 σ' (Runs.append_iff.mpr ⟨σ, his, .cons hstep hrest⟩)
  rw [hrest.keeps hjs, hleft reg hi] at hend
  cases hcompute : a.computes? symbols i σ with
  | some value =>
    rw [hcompute, Option.getD_some] at hend
    exact hloses σ (hend ▸ hcompute)
  | none =>
    rw [hcompute, Option.getD_none] at hend
    exact succ_ne a _ hend

end Puts

end Arch

end Retarget
