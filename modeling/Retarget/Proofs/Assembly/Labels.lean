import Mathlib.Data.List.Nodup
import Retarget.Pipeline
import Retarget.Proofs.Assembly.Lines
import Retarget.Proofs.Data.Quoting

/-!
# Local labels

The label of a block is made of the number of its function and its own name.  The number ends at the
first character that is no digit, so neither digits nor underscores in a name bring two labels
together (`localLabel_inj`).  No other line of a module defines a local label: an instruction starts
with the letter that its template starts with (`exists_letter_of_render`), and names hold no dot.  So
every label is defined once at most, and the label of a block that some instruction names is defined
directly before the block (`localLabels_resolve`).
-/

namespace Retarget.Assembly

open Machine Target

/-! ## Names -/

/-- A letter of any alphabet, a digit or an underscore; of ASCII nothing else is in a name. -/
def IsNameChar (c : Char) : Prop := c.isAlphanum = true ∨ c = '_' ∨ 0x80 ≤ c.toNat

instance (c : Char) : Decidable (IsNameChar c) :=
  inferInstanceAs (Decidable (_ ∨ _))

def IsName (s : String) : Prop := ∀ c ∈ s.toList, IsNameChar c

instance (s : String) : Decidable (IsName s) := List.decidableBAll IsNameChar s.toList

theorem IsName.not_mem {s : String} (h : IsName s) {c : Char} (hc : ¬ IsNameChar c) :
    c ∉ s.toList := fun hmem => hc (h c hmem)

theorem IsName.isLine {s : String} (h : IsName s) : IsLine s := h.not_mem (by decide)

/-- The block, function or global that an operand names. -/
def named? (o : Operand) : Option String := o.label?.or o.symbol?

/-- The names of a module are names, and those of the blocks of one function are distinct.  An
operand may decorate the name of a symbol, as in `:lo12:total`. -/
structure WellNamed (m : Machine.Module) : Prop where
  functions : ∀ f ∈ m.functions, IsName f.name
  blocks : ∀ f ∈ m.functions, ∀ block ∈ f.blocks, IsName block.name
  globals : ∀ d ∈ m.globals, IsName d.name
  distinct : ∀ f ∈ m.functions, (f.blocks.map (·.name)).Nodup
  operands : ∀ f ∈ m.functions, ∀ i ∈ f.instructions, ∀ o ∈ i.operands, ∀ name ∈ named? o,
    IsLine name

/-! ## Labels -/

theorem toList_localLabel (k : Nat) (block : String) :
    (localLabel k block).toList = '.' :: 'L' :: (Nat.toDigits 10 k ++ '_' :: block.toList) := by
  have hlabel : localLabel k block = ".L" ++ k.repr ++ "_" ++ block := rfl
  rw [hlabel, Nat.repr_eq_ofList_toDigits]
  simp only [String.toList_append, String.toList_ofList, List.append_assoc]
  rfl

theorem takeWhile_isDigit (k : Nat) (rest : List Char) :
    (Nat.toDigits 10 k ++ '_' :: rest).takeWhile Char.isDigit = Nat.toDigits 10 k := by
  rw [List.takeWhile_append_of_pos fun c hc =>
      Nat.isDigit_of_mem_toDigits (by decide) (by decide) hc,
    List.takeWhile_cons_of_neg (by decide), List.append_nil]

/-- **A local label tells its function and its block.** -/
theorem localLabel_inj {k k' : Nat} {block block' : String}
    (h : localLabel k block = localLabel k' block') : k = k' ∧ block = block' := by
  rw [← String.toList_inj, toList_localLabel, toList_localLabel] at h
  have hrest := (List.cons.inj (List.cons.inj h).2).2
  have hdigits : Nat.toDigits 10 k = Nat.toDigits 10 k' := by
    rw [← takeWhile_isDigit k block.toList, hrest, takeWhile_isDigit]
  rw [hdigits] at hrest
  have hblock := (List.cons.inj (List.append_cancel_left hrest)).2
  refine ⟨?_, String.toList_inj.mp hblock⟩
  rw [← Nat.ofDigitChars_ten_toDigits (n := k), hdigits, Nat.ofDigitChars_ten_toDigits]

def definedLocal? (line : String) : Option String :=
  let text := line.toList.dropWhile Text.isBlank
  if ['.', 'L'] <+: text ∧ ':' ∈ text then some (String.ofList (text.takeWhile (· ≠ ':')))
  else none

theorem not_mem_localLabel {k : Nat} {block : String} (hblock : IsName block) {c : Char}
    (hc : ¬ IsNameChar c) (hdot : c ≠ '.') : c ∉ (localLabel k block).toList := by
  have hdigit : c ∉ Nat.toDigits 10 k := fun hmem =>
    hc (.inl (by simp [Char.isAlphanum, Nat.isDigit_of_mem_toDigits (by decide) (by decide) hmem]))
  have hname : ∀ d, IsNameChar d → c ≠ d := fun d hd heq => hc (heq ▸ hd)
  rw [toList_localLabel]
  simp only [List.mem_cons, List.mem_append, not_or]
  exact ⟨hdot, hname 'L' (by decide), hdigit, hname '_' (by decide), hblock.not_mem hc⟩

theorem isLine_localLabel {k : Nat} {block : String} (h : IsLine block) :
    IsLine (localLabel k block) := by
  rw [IsLine, toList_localLabel]
  simp only [List.mem_cons, List.mem_append, not_or]
  exact ⟨by decide, by decide, fun hmem => absurd
    (Nat.isDigit_of_mem_toDigits (by decide) (by decide) hmem) (by decide), by decide, h⟩

theorem definedLocal?_labelLine {k : Nat} {block : String} (h : IsName block) :
    definedLocal? (labelLine k block) = some (localLabel k block) := by
  have hline : (labelLine k block).toList = (localLabel k block).toList ++ [':'] := by
    rw [labelLine, String.toList_append]
    rfl
  have hdrop : (labelLine k block).toList.dropWhile Text.isBlank =
      (localLabel k block).toList ++ [':'] := by
    rw [hline, toList_localLabel]
    exact List.dropWhile_cons_of_neg (by decide)
  have hlabel : ∀ c ∈ (localLabel k block).toList, decide (c ≠ ':') = true := fun c hc =>
    decide_eq_true fun heq => not_mem_localLabel h (by decide) (by decide) (heq ▸ hc)
  have hstart : ['.', 'L'] <+: (localLabel k block).toList ++ [':'] := by
    rw [toList_localLabel]
    exact ⟨_, rfl⟩
  rw [definedLocal?, hdrop]
  rw [if_pos ⟨hstart, by simp⟩, List.takeWhile_append_of_pos hlabel,
    List.takeWhile_cons_of_neg (by decide), List.append_nil, String.ofList_toList]

/-! ## The other lines -/

/-- A line that defines no local label. -/
structure IsPlain (line : String) : Prop where
  isLine : IsLine line
  defines : definedLocal? line = none

theorem definedLocal?_of_not_prefix {line : String}
    (h : ¬ ['.', 'L'] <+: line.toList.dropWhile Text.isBlank) : definedLocal? line = none :=
  if_neg fun hboth => h hboth.1

theorem isPlain_empty : IsPlain "" := ⟨by decide, definedLocal?_of_not_prefix (by decide)⟩

theorem isPlain_name {s : String} (h : IsName s) : IsPlain (s ++ ":") := by
  have htext : (s ++ ":").toList = s.toList ++ [':'] := String.toList_append
  refine ⟨isLine_append.mpr ⟨h.isLine, by decide⟩, definedLocal?_of_not_prefix fun hstart => ?_⟩
  have hmem : '.' ∈ s.toList ++ [':'] := by
    rw [← htext]
    exact (List.dropWhile_suffix _).subset (hstart.subset (by simp))
  rw [List.mem_append] at hmem
  exact hmem.elim (h.not_mem (by decide)) (by decide)

/-- A directive begins with a dot, and goes on with another letter than the one of local labels. -/
theorem isPlain_directive {blanks rest : List Char} {line : String} {c : Char}
    (htext : line.toList = blanks ++ '.' :: c :: rest) (hblanks : ∀ b ∈ blanks, Text.isBlank b)
    (hc : c ≠ 'L') (hline : IsLine line) : IsPlain line := by
  refine ⟨hline, definedLocal?_of_not_prefix fun hstart => ?_⟩
  rw [htext, List.dropWhile_append_of_pos hblanks, List.dropWhile_cons_of_neg (by decide)] at hstart
  exact hc (List.cons_prefix_cons.mp (List.cons_prefix_cons.mp hstart).2).1.symm

theorem isPlain_globl {s : String} (h : IsName s) : IsPlain (".globl " ++ s) := by
  have htext : (".globl " ++ s).toList = [] ++ '.' :: 'g' :: ("lobl ".toList ++ s.toList) := by
    rw [String.toList_append]
    rfl
  exact isPlain_directive htext (by simp) (by decide) (isLine_append.mpr ⟨by decide, h.isLine⟩)

theorem isPlain_section : IsPlain ".section .data" := by
  have htext : ".section .data".toList = [] ++ '.' :: 's' :: "ection .data".toList := rfl
  exact isPlain_directive htext (by simp) (by decide) (by decide)

theorem not_isBlank_of_isAlpha {c : Char} (h : c.isAlpha = true) : ¬ Text.isBlank c = true := by
  have h : (decide ('A'.val ≤ c.val ∧ c.val ≤ 'Z'.val) ||
      decide ('a'.val ≤ c.val) && decide (c.val ≤ 'z'.val)) = true := h
  simp only [Bool.or_eq_true, Bool.and_eq_true, decide_eq_true_eq, UInt32.le_iff_toNat_le] at h
  change (65 ≤ c.toNat ∧ c.toNat ≤ 90) ∨ (97 ≤ c.toNat ∧ c.toNat ≤ 122) at h
  simp only [Text.isBlank, Text.inRanges, Text.blankRanges, List.any_cons, List.any_nil,
    Bool.or_eq_true, Bool.and_eq_true, decide_eq_true_eq, Bool.or_false]
  omega

theorem isPlain_code {line : String} (hline : IsLine line) {c : Char}
    (hc : line.toList.head? = some c) (hletter : c.isAlpha = true) : IsPlain ("\t" ++ line) := by
  refine ⟨isLine_append.mpr ⟨by decide, hline⟩, definedLocal?_of_not_prefix fun hstart => ?_⟩
  obtain ⟨rest, hrest⟩ := List.head?_eq_some_iff.mp hc
  have htext : ("\t" ++ line).toList = '\t' :: c :: rest := by
    rw [String.toList_append, hrest]
    rfl
  rw [htext, List.dropWhile_cons_of_pos (by decide),
    List.dropWhile_cons_of_neg (not_isBlank_of_isAlpha hletter)] at hstart
  rw [← (List.cons_prefix_cons.mp hstart).1] at hletter
  exact absurd hletter (by decide)

theorem isLine_repr (n : Nat) : IsLine n.repr := by
  rw [IsLine, Nat.repr_eq_ofList_toDigits, String.toList_ofList]
  exact fun hmem => absurd (Nat.isDigit_of_mem_toDigits (by decide) (by decide) hmem) (by decide)

theorem isLine_toString (v : Int) : IsLine (toString v) := by
  rw [show toString v = v.repr from rfl, Int.repr_eq_if]
  split
  · exact isLine_repr _
  · exact isLine_append.mpr ⟨by decide, isLine_repr _⟩

theorem isLine_quote (s : String) : IsLine (quote s) := fun hmem =>
  absurd ((isQuotation_quote s).printable _ hmem).1 (by decide)

theorem isLine_argument (e : DataEntry) : IsLine e.argument := by
  cases e with
  | scalar w v => exact isLine_toString v
  | zeros n => exact isLine_repr n
  | text s => exact isLine_quote s

theorem exists_directive (e : DataEntry) :
    IsLine e.directive ∧ ∃ c rest, e.directive.toList = '.' :: c :: rest ∧ c ≠ 'L' := by
  have hmem : e.directive ∈ [".byte", ".short", ".long", ".quad", ".zero", ".asciz"] := by
    cases e with
    | scalar w v => cases w <;> simp [DataEntry.directive, ScalarWidth.directive]
    | zeros n => simp [DataEntry.directive]
    | text s => simp [DataEntry.directive]
  have hall : ∀ d ∈ [".byte", ".short", ".long", ".quad", ".zero", ".asciz"],
      IsLine d ∧ d.toList.head? = some '.' ∧ (d.toList[1]?.any (· ≠ 'L')) := by
    decide +kernel
  obtain ⟨hline, hdot, hletter⟩ := hall _ hmem
  obtain ⟨rest, htext⟩ := List.head?_eq_some_iff.mp hdot
  rw [htext, List.getElem?_cons_succ, Option.any_eq_true] at hletter
  obtain ⟨c, hc, hne⟩ := hletter
  obtain ⟨rest, rfl⟩ := List.head?_eq_some_iff.mp (List.head?_eq_getElem?.trans hc)
  exact ⟨hline, c, rest, htext, of_decide_eq_true hne⟩

theorem isPlain_entry (e : DataEntry) : IsPlain ("\t" ++ e.directive ++ "\t" ++ e.argument) := by
  obtain ⟨hline, c, rest, hdirective, hc⟩ := exists_directive e
  have htext : ("\t" ++ e.directive ++ "\t" ++ e.argument).toList =
      ['\t'] ++ '.' :: c :: (rest ++ ("\t" ++ e.argument).toList) := by
    simp only [String.toList_append, hdirective, List.append_assoc, List.cons_append]
    rfl
  refine isPlain_directive htext (List.forall_mem_singleton.mpr rfl) hc ?_
  simp only [isLine_append]
  exact ⟨⟨⟨by decide, hline⟩, by decide⟩, isLine_argument e⟩

/-! ## Instructions -/

/-- The template starts with a letter and holds no line end. -/
def StartsWithLetter (template : Template) : Bool :=
  match template.pieces with
  | .char c :: rest => c.isAlpha && !rest.contains (.char '\n')
  | _ => false

theorem startsWithLetter_of_mem (a : Arch) :
    ∀ template ∈ a.target.templates, StartsWithLetter template = true := by
  cases a with
  | aarch64 =>
    show ∀ template ∈ AArch64.templates, StartsWithLetter template = true
    decide +kernel
  | riscv32 =>
    show ∀ template ∈ Riscv.templates, StartsWithLetter template = true
    decide +kernel

theorem isLine_nameOf (a : Arch) (reg : RegId) : IsLine (a.target.registers.nameOf reg) := by
  have hfile : ∀ r ∈ a.target.registers.file, IsLine r.shown := by
    cases a with
    | aarch64 =>
      show ∀ r ∈ AArch64.registers.file, IsLine r.shown
      decide +kernel
    | riscv32 =>
      show ∀ r ∈ Riscv.registers.file, IsLine r.shown
      decide +kernel
  rw [Registers.nameOf]
  cases hreg : a.target.registers.get? reg with
  | none => exact isLine_append.mpr ⟨by decide, isLine_repr _⟩
  | some r => exact hfile r (List.mem_of_getElem? hreg)

section Render

variable {a : Arch} {k : Nat} {f : Machine.Function} {i : Machine.Instruction} {line : String}

theorem isLine_renderOperand {o : Operand} (ho : ∀ name ∈ named? o, IsLine name)
    (h : renderOperand a.target k f o = .ok line) : IsLine line := by
  obtain ⟨kind, ty, regClass⟩ := o
  cases kind with
  | virtualReg | memory | stack | parameter => cases h
  | physicalReg reg =>
    cases h
    exact isLine_nameOf a reg
  | immediate v =>
    cases h
    exact isLine_toString v
  | label name =>
    cases h
    exact isLine_localLabel (ho name rfl)
  | function name | global name =>
    cases h
    exact ho line rfl

theorem exists_of_render_eq_ok (h : render a.target k f i = .ok line) :
    ∃ template ∈ a.target.templates, ∃ cs,
      template.pieces.foldlM (renderPiece a.target k f template.text i) [] = .ok cs ∧
      line = String.ofList cs.reverse := by
  obtain ⟨template, htemplate, h⟩ := bind_eq_ok.mp h
  refine ⟨template, List.mem_of_getElem?
    (Option.filter_eq_some_iff.mp (orFail_eq_ok.mp htemplate)).1, ?_⟩
  by_cases hlength : i.operands.length = template.operandCount
  · simp only [ne_eq, hlength, not_true_eq_false, if_false] at h
    obtain ⟨cs, hcs, h⟩ := bind_eq_ok.mp h
    exact ⟨cs, hcs, (pure_eq_ok.mp h).symm⟩
  · simp only [ne_eq, hlength, not_false_eq_true, if_true] at h
    cases h

/-- A line written so far, backwards: it holds no line end and starts with `c`. -/
def StartedWith (c : Char) (cs : List Char) : Prop := '\n' ∉ cs ∧ cs.getLast? = some c

theorem StartedWith.append {c : Char} {cs : List Char} (h : StartedWith c cs) {new : List Char}
    (hnew : '\n' ∉ new) : StartedWith c (new ++ cs) := by
  refine ⟨by simp [hnew, h.1], ?_⟩
  rw [List.getLast?_append, h.2, Option.some_or]

theorem StartedWith.of_cons {c d : Char} {cs : List Char} (h : StartedWith c (d :: cs))
    (hd : d ≠ c) : StartedWith c cs := by
  refine ⟨fun hmem => h.1 (List.mem_cons_of_mem _ hmem), ?_⟩
  cases cs with
  | nil => exact absurd (Option.some.inj h.2) hd
  | cons e cs => exact h.2

theorem StartedWith.renderPiece {c : Char} (hc : c ≠ '#') {p : Template.Piece}
    (hp : p ≠ .char '\n') {text : String} {cs cs' : List Char}
    (hi : ∀ o ∈ i.operands, ∀ name ∈ named? o, IsLine name)
    (hcs : StartedWith c cs) (h : renderPiece a.target k f text i cs p = .ok cs') :
    StartedWith c cs' := by
  cases p with
  | char d =>
    cases h
    exact hcs.append (show '\n' ∉ [d] by simpa [eq_comm] using hp)
  | operand n =>
    obtain ⟨o, ho, h⟩ := bind_eq_ok.mp h
    obtain ⟨shown, hshown, h⟩ := bind_eq_ok.mp h
    have hmem : o ∈ i.operands := by
      rw [orFail_eq_ok] at ho
      split at ho
      · cases ho
      · exact List.mem_of_getElem? ho
    have hline : '\n' ∉ shown.toList.reverse := by
      rw [List.mem_reverse]
      exact isLine_renderOperand (hi o hmem) hshown
    rw [← pure_eq_ok.mp h]
    refine StartedWith.append ?_ hline
    split
    · split
      · next d rest =>
        split
        · next hd => exact hcs.of_cons (hd ▸ hc.symm)
        · exact hcs
      · exact hcs
    · exact hcs

/-- **An instruction is one line, which starts with a letter.** -/
theorem exists_letter_of_render
    (hi : ∀ o ∈ i.operands, ∀ name ∈ named? o, IsLine name)
    (h : render a.target k f i = .ok line) :
    IsLine line ∧ ∃ c, line.toList.head? = some c ∧ c.isAlpha = true := by
  obtain ⟨template, hmem, cs, hcs, rfl⟩ := exists_of_render_eq_ok h
  have hletter := startsWithLetter_of_mem a template hmem
  unfold StartsWithLetter at hletter
  split at hletter
  case h_2 => cases hletter
  next c pieces hpieces =>
  simp only [Bool.and_eq_true, Bool.not_eq_true', List.contains_eq_mem, decide_eq_false_iff_not]
    at hletter
  have hc : c ≠ '#' := fun heq => absurd (heq ▸ hletter.1) (by decide)
  have hend : '\n' ∉ [c] := by
    rw [List.mem_singleton]
    exact fun heq => absurd (heq ▸ hletter.1) (by decide)
  rw [hpieces, List.foldlM_cons] at hcs
  obtain ⟨hend, hlast⟩ : StartedWith c cs :=
    foldlM_eq_ok (P := StartedWith c) ⟨hend, rfl⟩
      (fun p hp _ _ hbefore hafter => hbefore.renderPiece hc
        (fun heq => hletter.2 (heq ▸ hp)) hi hafter) hcs
  refine ⟨?_, c, ?_, hletter.1⟩
  · rwa [IsLine, String.toList_ofList, List.mem_reverse]
  · rw [String.toList_ofList, List.head?_reverse, hlast]

end Render

/-! ## What lines define -/

/-- The lines define labels among these, each at most as often as it stands there. -/
structure Labelled (names ls : List String) : Prop where
  isLine : ∀ l ∈ ls, IsLine l
  sublist : (ls.filterMap definedLocal?).Sublist names

namespace Labelled

variable {names names' ls ls' : List String}

theorem of_isPlain (h : ∀ l ∈ ls, IsPlain l) : Labelled [] ls where
  isLine l hl := (h l hl).isLine
  sublist := by rw [List.filterMap_eq_nil_iff.mpr fun l hl => (h l hl).defines]

theorem append (h : Labelled names ls) (h' : Labelled names' ls') :
    Labelled (names ++ names') (ls ++ ls') where
  isLine := List.forall_mem_append.mpr ⟨h.isLine, h'.isLine⟩
  sublist := by
    rw [List.filterMap_append]
    exact h.sublist.append h'.sublist

theorem flatten {α : Type} {R : α → List String → Prop} {l : List α} {lss : List (List String)}
    {names : α → List String} (h : List.Forall₂ R l lss)
    (hnames : ∀ a ∈ l, ∀ ls, R a ls → Labelled (names a) ls) :
    Labelled (l.flatMap names) lss.flatten := by
  induction h with
  | nil => exact of_isPlain (by simp)
  | cons hab _ ih =>
    rw [List.flatten_cons, List.flatMap_cons]
    rw [List.forall_mem_cons] at hnames
    exact (hnames.1 _ hab).append (ih hnames.2)

theorem intercalate {sep : String} (hsep : IsPlain sep) {lss : List (List String)}
    (h : Labelled names lss.flatten) : Labelled names ([sep].intercalate lss) where
  isLine l hl := by
    obtain rfl | ⟨ls, hls, hl⟩ := mem_intercalate hl
    · exact hsep.isLine
    · exact h.isLine l (List.mem_flatten.mpr ⟨ls, hls, hl⟩)
  sublist := by
    rw [filterMap_intercalate hsep.defines]
    exact h.sublist

end Labelled

/-! ## Modules -/

def blockLabels (entry : Machine.Function × Nat) : List String :=
  entry.1.blocks.map fun block => localLabel entry.2 block.name

section Modules

variable {a : Arch} {m : Machine.Module} {f : Machine.Function} {k : Nat} {ls : List String}

theorem isPlain_of_mapM (hm : WellNamed m) (hf : f ∈ m.functions) {block : Block}
    (hblock : block ∈ f.blocks) {code : List String}
    (hcode : block.instructions.mapM (render a.target k f) = .ok code) :
    ∀ line ∈ code.map ("\t" ++ ·), IsPlain line := by
  rw [List.forall_mem_map]
  intro line hline
  obtain ⟨i, hi, hrender⟩ := exists_of_mem_mapM_eq_ok hcode hline
  have hmem : i ∈ f.instructions := List.mem_flatMap.mpr ⟨block, hblock, hi⟩
  obtain ⟨hisLine, c, hc, hletter⟩ := exists_letter_of_render (hm.operands f hf i hmem) hrender
  exact isPlain_code hisLine hc hletter

theorem labelled_labelLine {block : String} (h : IsName block) :
    Labelled [localLabel k block] [labelLine k block] where
  isLine := by
    rw [List.forall_mem_singleton]
    exact isLine_append.mpr ⟨isLine_localLabel h.isLine, by decide⟩
  sublist := by
    rw [List.filterMap_cons_some (definedLocal?_labelLine h), List.filterMap_nil]

theorem PrintsBlock.labelled (hm : WellNamed m) (hf : f ∈ m.functions) {entry : Block × Nat}
    (hblock : entry.1 ∈ f.blocks) (h : PrintsBlock a.target k f entry ls) :
    Labelled [localLabel k entry.1.name] ls := by
  obtain ⟨code, hcode, rfl⟩ := h
  have hplain := Labelled.of_isPlain (isPlain_of_mapM hm hf hblock hcode)
  split
  · exact (labelled_labelLine (hm.blocks f hf _ hblock)).append hplain
  · exact ⟨hplain.isLine, hplain.sublist.trans (List.nil_sublist _)⟩

theorem PrintsFunction.labelled (hm : WellNamed m) {entry : Machine.Function × Nat}
    (hf : entry.1 ∈ m.functions) (h : PrintsFunction a.target entry ls) :
    Labelled (blockLabels entry) ls := by
  obtain ⟨lss, hlss, rfl⟩ := h
  have hname := hm.functions _ hf
  have hhead : Labelled [] [".globl " ++ entry.1.name, entry.1.name ++ ":"] :=
    .of_isPlain (by simpa using ⟨isPlain_globl hname, isPlain_name hname⟩)
  have hblocks : Labelled (entry.1.blocks.zipIdx.flatMap fun e => [localLabel entry.2 e.1.name])
      lss.flatten :=
    Labelled.flatten hlss fun e he ls hls =>
      PrintsBlock.labelled hm hf (List.fst_mem_of_mem_zipIdx he) hls
  have hlabels : entry.1.blocks.zipIdx.flatMap (fun e => [localLabel entry.2 e.1.name]) =
      blockLabels entry := by
    rw [← List.map_eq_flatMap, blockLabels]
    conv_rhs => rw [← List.zipIdx_map_fst 0 entry.1.blocks, List.map_map]
    rfl
  rw [hlabels] at hblocks
  exact hhead.append hblocks

theorem isPlain_dataSection (hm : WellNamed m) : ∀ line ∈ dataSection m, IsPlain line := by
  rw [dataSection]
  split
  · simp
  · rw [List.forall_mem_cons, List.forall_mem_cons]
    refine ⟨isPlain_empty, isPlain_section, fun line hline => ?_⟩
    obtain ⟨d, hd, hline⟩ := List.mem_flatMap.mp hline
    obtain rfl | hline := List.mem_cons.mp hline
    · exact isPlain_name (hm.globals d hd)
    · obtain ⟨e, -, rfl⟩ := List.mem_map.mp hline
      exact isPlain_entry e

theorem nodup_blockLabels (hm : WellNamed m) :
    (m.functions.zipIdx.flatMap blockLabels).Nodup := by
  rw [List.nodup_flatMap]
  refine ⟨fun entry hentry => ?_, ?_⟩
  · have hlabels : blockLabels entry =
        (entry.1.blocks.map (·.name)).map (localLabel entry.2) := by
      rw [List.map_map]
      rfl
    rw [hlabels]
    exact (hm.distinct _ (List.fst_mem_of_mem_zipIdx hentry)).map
      fun _ _ heq => (localLabel_inj heq).2
  · have hindex : (m.functions.zipIdx.map Prod.snd).Nodup := by
      rw [List.zipIdx_map_snd]
      exact List.nodup_range'
    rw [List.Nodup, List.pairwise_map] at hindex
    refine hindex.imp fun hne label hlabel hlabel' => ?_
    obtain ⟨block, -, rfl⟩ := List.mem_map.mp hlabel
    obtain ⟨block', -, heq⟩ := List.mem_map.mp hlabel'
    exact hne (localLabel_inj heq).1.symm

theorem filter_eq_singleton {d : String → Option String} {name l : String}
    (hnodup : (ls.filterMap d).Nodup) (hl : l ∈ ls) (hd : d l = some name) :
    ls.filter (fun l => d l = some name) = [l] := by
  obtain ⟨before, after, rfl⟩ := List.append_of_mem hl
  rw [List.filterMap_append, List.filterMap_cons_some hd, List.nodup_append', List.nodup_cons]
    at hnodup
  obtain ⟨-, ⟨hafter, -⟩, hbefore⟩ := hnodup
  have hnone : ∀ part : List String, name ∉ part.filterMap d →
      part.filter (fun l => d l = some name) = [] := by
    intro part hpart
    rw [List.filter_eq_nil_iff]
    intro l' hl' heq
    exact hpart (List.mem_filterMap.mpr ⟨l', hl', of_decide_eq_true heq⟩)
  have hbefore : name ∉ before.filterMap d := fun hmem => hbefore hmem (by simp)
  simp only [List.filter_append, List.filter_cons, hd, decide_true, if_true, hnone before hbefore,
    hnone after hafter, List.nil_append]

/-- **Local labels are unique and resolve.**  No two lines define the same local label.  Where an
instruction names the label of a block of its function, one line defines that, and it stands
directly before the instructions of the block. -/
theorem localLabels_resolve (a : Arch) {m : Machine.Module} (hm : WellNamed m) {text : String}
    (h : emit a.target m = .ok text) :
    ((lines text).filterMap definedLocal?).Nodup ∧
    ∀ k f, m.functions[k]? = some f → ∀ block ∈ f.blocks,
      (∃ i ∈ f.instructions, ∃ o ∈ i.operands, o.label? = some block.name) →
      (lines text).filter (fun line => definedLocal? line = some (localLabel k block.name)) =
        [labelLine k block.name] ∧
      ∃ code, block.instructions.mapM (render a.target k f) = .ok code ∧
        labelLine k block.name :: code.map ("\t" ++ ·) <:+: lines text := by
  obtain ⟨lss, hlss, rfl⟩ := exists_of_emit_eq_ok h
  have hfunctions := (Labelled.flatten hlss fun entry hentry ls hls =>
    PrintsFunction.labelled hm (List.fst_mem_of_mem_zipIdx hentry) hls).intercalate isPlain_empty
  have hall := hfunctions.append (.of_isPlain (isPlain_dataSection hm))
  rw [List.append_nil] at hall
  have hlines := lines_ofLines hall.isLine
  have hnodup : ((lines (ofLines ([""].intercalate lss ++ dataSection m))).filterMap
      definedLocal?).Nodup := by
    rw [hlines, List.filterMap_append, List.filterMap_cons_none isPlain_empty.defines,
      List.filterMap_nil, List.append_nil]
    exact (nodup_blockLabels hm).sublist hall.sublist
  refine ⟨hnodup, fun k f hf block hblock hnamed => ?_⟩
  obtain ⟨fls, hfls, bss, hbss, rfl⟩ :=
    exists_lines_of_mem hlss (List.mk_mem_zipIdx_iff_getElem?.mpr hf)
  obtain ⟨n, hn⟩ := List.mem_iff_getElem?.mp hblock
  obtain ⟨bls, hbls, code, hcode, rfl⟩ :=
    exists_lines_of_mem hbss (List.mk_mem_zipIdx_iff_getElem?.mpr hn)
  have hmentions : mentionsLabel f block.name = true := by
    obtain ⟨i, hi, o, ho, hlabel⟩ := hnamed
    exact List.any_eq_true.mpr ⟨i, hi, List.any_eq_true.mpr ⟨o, ho, by simp [hlabel]⟩⟩
  rw [if_pos (by rw [hmentions, Bool.or_true])] at hbls
  have hpart : labelLine k block.name :: code.map ("\t" ++ ·) <:+:
      lines (ofLines ([""].intercalate lss ++ dataSection m)) := by
    rw [hlines, List.append_assoc]
    calc labelLine k block.name :: code.map ("\t" ++ ·)
      _ <:+: bss.flatten := List.infix_of_mem_flatten hbls
      _ <:+: _ := List.infix_cons (List.infix_cons List.infix_rfl)
      _ <:+: [""].intercalate lss := infix_intercalate _ hfls
      _ <:+: _ := (List.prefix_append _ _).isInfix
  have hname := hm.blocks f (List.mem_of_getElem? hf) block hblock
  exact ⟨filter_eq_singleton hnodup (hpart.subset (by simp)) (definedLocal?_labelLine hname),
    code, hcode, hpart⟩

/-- Two loops, the first at the entry of its function.  The names of the blocks look like the numbers
of the functions. -/
def loops : Machine.Module where
  functions :=
    [{ name := "f"
       blocks := [⟨"1", [.make AArch64.Op.b.opcode [.label "1"]]⟩] },
     { name := "_1"
       blocks := [⟨"0_", []⟩, ⟨"1", [.make AArch64.Op.b.opcode [.label "1"]]⟩,
         ⟨"_1", [.make AArch64.Op.ret.opcode []]⟩] }]
  globals := [⟨"total", 4, [.scalar .long (-7)]⟩]

def loopsText : String :=
  ".globl f\nf:\n.L0_1:\n\tb\t.L0_1\n\n.globl _1\n_1:\n.L1_1:\n\tb\t.L1_1\n.L1__1:\n\tret\n" ++
    "\n.section .data\ntotal:\n\t.long\t-7\n"

theorem localLabels_resolve_loops :
    WellNamed loops ∧ emit Arch.aarch64.target loops = .ok loopsText ∧
      ((lines loopsText).filterMap definedLocal?).Nodup ∧
      (lines loopsText).filter (fun line => definedLocal? line = some (localLabel 0 "1")) =
        [labelLine 0 "1"] := by
  have hnames : WellNamed loops :=
    ⟨by decide, by decide, by decide, by decide, by decide +kernel⟩
  have htext : emit Arch.aarch64.target loops = .ok loopsText := by decide +kernel
  obtain ⟨hnodup, hresolve⟩ := localLabels_resolve .aarch64 hnames htext
  have hentry := hresolve 0 loops.functions[0] rfl loops.functions[0].blocks[0] (by decide)
    (by decide +kernel)
  exact ⟨hnames, htext, hnodup, hentry.1⟩

end Modules

end Retarget.Assembly
