import Retarget.Assembly
import Retarget.Proofs.Shape.Basic
import Retarget.Target.AArch64
import Retarget.Target.Riscv

/-!
# Templates of the targets

Every native operation of a target has its template at its number, with the operands counted here
(`AArch64.Op.fits`, `Riscv.Op.fits`), and templates count their operands from one (`Printable`).  So
an instruction that is final can be printed (`exists_render`).
-/

namespace Retarget.Target

open Machine (Instruction Operand)

/-- Every operand that a template of the target names is counted from one. -/
def Printable (t : Target) : Prop :=
  ∀ template ∈ t.templates, Template.Piece.operand 0 ∉ template.pieces

theorem fits_of_template {t : Target} {i : Instruction} {number : Nat} {template : Template}
    (hopcode : i.opcode = .native number) (hnumber : number < Machine.Opcode.genericBase)
    (hfind : Template.find? t.templates number = some template)
    (hlength : i.operands.length = template.operandCount) : i.Fits t := by
  refine ⟨?_, template, ?_, hlength⟩
  · rw [Instruction.isSelected, hopcode]
    exact decide_eq_true hnumber
  · rw [Target.template?, hopcode]
    exact hfind

namespace AArch64.Op

def operandCount : Op → Nat
  | csetEq | csetNe | csetLt | csetGt | csetLe | csetGe | csetLo
  | bEq | bNe | bLt | bGt | bLe | bGe | bLo | b | bl => 1
  | cmpR | cmpI | sxtb | sxth | sxtw | uxtb | uxth | movI | movR
  | fmov | fcmp | scvtf | fcvtzs | adrp | cbnz => 2
  | ret => 0
  | _ => 3

def template (op : Op) : Template := { opcode := op.number, text := op.text, flags := op.flags }

theorem mem_all (op : Op) : op ∈ all := by
  cases op <;> decide

theorem find?_template (op : Op) : Template.find? templates op.number = some op.template := by
  cases op <;> rfl

theorem operandCount_template (op : Op) : op.template.operandCount = op.operandCount := by
  have hall : ∀ op ∈ all, (op.template).operandCount = op.operandCount := by decide +kernel
  exact hall op op.mem_all

theorem number_lt (op : Op) : op.number < Machine.Opcode.genericBase := by
  cases op <;> decide

theorem fits {i : Instruction} (op : Op) (hopcode : i.opcode = op.opcode)
    (hlength : i.operands.length = op.operandCount) : i.Fits aarch64 :=
  fits_of_template hopcode op.number_lt op.find?_template
    (hlength.trans op.operandCount_template.symm)

end AArch64.Op

namespace Riscv.Op

def operandCount : Op → Nat
  | j | call => 1
  | li | mv | luiHi | bnez => 2
  | ret => 0
  | _ => 3

def template (op : Op) : Template := { opcode := op.number, text := op.text, flags := op.flags }

theorem mem_all (op : Op) : op ∈ all := by
  cases op <;> decide

theorem find?_template (op : Op) : Template.find? templates op.number = some op.template := by
  cases op <;> rfl

theorem operandCount_template (op : Op) : op.template.operandCount = op.operandCount := by
  have hall : ∀ op ∈ all, (op.template).operandCount = op.operandCount := by decide +kernel
  exact hall op op.mem_all

theorem number_lt (op : Op) : op.number < Machine.Opcode.genericBase := by
  cases op <;> decide

theorem fits {i : Instruction} (op : Op) (hopcode : i.opcode = op.opcode)
    (hlength : i.operands.length = op.operandCount) : i.Fits riscv32 :=
  fits_of_template hopcode op.number_lt op.find?_template
    (hlength.trans op.operandCount_template.symm)

end Riscv.Op

/-! ## Text -/

theorem AArch64.printable : Printable aarch64 := by
  show ∀ template ∈ AArch64.templates, Template.Piece.operand 0 ∉ template.pieces
  decide +kernel

theorem Riscv.printable : Printable riscv32 := by
  show ∀ template ∈ Riscv.templates, Template.Piece.operand 0 ∉ template.pieces
  decide +kernel

theorem le_foldl_max (pieces : List Template.Piece) (most : Nat) :
    most ≤ pieces.foldl (fun most p => match p with
      | .operand n => max most n
      | .char _ => most) most := by
  induction pieces generalizing most with
  | nil => exact Nat.le_refl _
  | cons p pieces ih =>
    rw [List.foldl_cons]
    cases p with
    | char c => exact ih most
    | operand n => exact Nat.le_trans (Nat.le_max_left most n) (ih _)

theorem le_operandCount {template : Template} {n : Nat} (h : .operand n ∈ template.pieces) :
    n ≤ template.operandCount := by
  rw [Template.operandCount]
  obtain ⟨before, after, hpieces⟩ := List.append_of_mem h
  rw [hpieces, List.foldl_append, List.foldl_cons]
  exact Nat.le_trans (Nat.le_max_right _ n) (le_foldl_max after _)

variable {t : Target} {i : Instruction}

theorem exists_renderOperand (t : Target) (index : Nat) (f : Machine.Function) {o : Operand}
    (h : o.isFinal) : ∃ text, Assembly.renderOperand t index f o = .ok text := by
  obtain ⟨kind, ty, regClass⟩ := o
  cases kind with
  | virtualReg | memory | stack | parameter => cases h
  | _ => exact ⟨_, rfl⟩

theorem exists_foldlM {α β : Type} {g : β → α → Result β} {l : List α}
    (h : ∀ a ∈ l, ∀ b, ∃ b', g b a = .ok b') (b : β) : ∃ b', l.foldlM g b = .ok b' := by
  induction l generalizing b with
  | nil => exact ⟨b, rfl⟩
  | cons a l ih =>
    obtain ⟨b', hb'⟩ := h a (by simp) b
    obtain ⟨b'', hb''⟩ := ih (fun a ha => h a (by simp [ha])) b'
    exact ⟨b'', by rw [List.foldlM_cons, hb', ok_bind, hb'']⟩

/-- **Final instructions are printed.** -/
theorem exists_render (ht : Printable t) (h : i.Final t) (index : Nat) (f : Machine.Function) :
    ∃ line, Assembly.render t index f i = .ok line := by
  obtain ⟨⟨-, template, htemplate, hcount⟩, hfinal⟩ := h
  have hmem : template ∈ t.templates :=
    List.mem_of_getElem? (Option.filter_eq_some_iff.mp htemplate).1
  have hpiece : ∀ p ∈ template.pieces, ∀ line,
      ∃ line', Assembly.renderPiece t index f template.text i line p = .ok line' := by
    intro p hp line
    cases p with
    | char c => exact ⟨_, rfl⟩
    | operand n =>
      have hpos : n ≠ 0 := fun hzero => ht template hmem (hzero ▸ hp)
      have hle := le_operandCount hp
      have hlt : n - 1 < i.operands.length := by omega
      obtain ⟨text, htext⟩ := exists_renderOperand t index f (hfinal _ (List.getElem_mem hlt))
      have hget : i.operand? (n - 1) = some i.operands[n - 1] := List.getElem?_eq_getElem hlt
      simp only [Assembly.renderPiece, if_neg hpos, hget, orFail, ok_bind, htext]
      exact ⟨_, rfl⟩
  obtain ⟨line, hline⟩ := exists_foldlM hpiece []
  refine ⟨String.ofList line.reverse, ?_⟩
  rw [Assembly.render, htemplate]
  dsimp only [orFail]
  rw [ok_bind, if_neg (not_not_intro hcount), hline]
  rfl

end Retarget.Target
