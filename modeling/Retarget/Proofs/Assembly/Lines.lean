import Mathlib.Data.List.Forall2
import Mathlib.Data.List.Infix
import Retarget.Assembly
import Retarget.Proofs.Checked

/-!
# The lines of assembly text

An assembler reads its input line by line.  The text of a module is taken apart in the same way: it
is the lines of the functions, with an empty one between two functions, and the lines of the data
(`exists_of_emit_eq_ok`), and reading it line by line gives these back as long as none of them holds
a line end of its own (`lines_ofLines`).
-/

namespace Retarget.Assembly

open Machine

/-! ## Texts and their lines -/

/-- The lines of a text; what stands behind the last line end is a line too. -/
def lines (text : String) : List String := (text.toList.splitOn '\n').map String.ofList

/-- The text that has these lines, each with its line end. -/
def ofLines (ls : List String) : String := String.join (ls.map (· ++ "\n"))

/-- The text holds no line end. -/
def IsLine (text : String) : Prop := '\n' ∉ text.toList

instance (text : String) : Decidable (IsLine text) := inferInstanceAs (Decidable (¬ _))

theorem isLine_append {s t : String} : IsLine (s ++ t) ↔ IsLine s ∧ IsLine t := by
  simp only [IsLine, String.toList_append, List.mem_append, not_or]

theorem ofLines_cons (l : String) (ls : List String) :
    ofLines (l :: ls) = l ++ ("\n" ++ ofLines ls) := by
  rw [← String.toList_inj]
  simp only [ofLines, String.toList_join, List.map_cons, List.flatMap_cons, String.toList_append,
    List.append_assoc]

theorem toList_ofLines_cons (l : String) (ls : List String) :
    (ofLines (l :: ls)).toList = l.toList ++ '\n' :: (ofLines ls).toList := by
  rw [ofLines_cons, String.toList_append, String.toList_append]
  rfl

theorem ofLines_append (ls ks : List String) : ofLines (ls ++ ks) = ofLines ls ++ ofLines ks := by
  rw [← String.toList_inj]
  simp only [ofLines, List.map_append, String.toList_append, String.toList_join,
    List.flatMap_append]

theorem ofLines_flatten (lss : List (List String)) :
    ofLines lss.flatten = String.join (lss.map ofLines) := by
  rw [← String.toList_inj, String.toList_join]
  induction lss with
  | nil => rfl
  | cons ls lss ih =>
    rw [List.flatten_cons, ofLines_append, String.toList_append, ih, List.map_cons,
      List.flatMap_cons]

theorem lines_ofLines {ls : List String} (h : ∀ l ∈ ls, IsLine l) :
    lines (ofLines ls) = ls ++ [""] := by
  unfold lines
  induction ls with
  | nil => rfl
  | cons l ls ih =>
    rw [List.forall_mem_cons] at h
    rw [toList_ofLines_cons, List.splitOn_append_cons_self_of_not_mem h.1, List.map_cons, ih h.2,
      String.ofList_toList, List.cons_append]

theorem intercalate_ofLines (lss : List (List String)) :
    "\n".intercalate (lss.map ofLines) = ofLines ([""].intercalate lss) := by
  rw [← String.toList_inj, String.toList_intercalate]
  have hend : "\n".toList = (ofLines [""]).toList := by decide
  rw [hend]
  induction lss with
  | nil => rfl
  | cons ls lss ih =>
    cases lss with
    | nil => simp only [List.map_cons, List.map_nil, List.intercalate_singleton]
    | cons ls' lss =>
      simp only [List.map_cons, List.intercalate_cons_cons] at ih ⊢
      rw [ih, ofLines_append, ofLines_append, String.toList_append, String.toList_append]

/-! ## Lists of lines that are put together -/

section Parts

variable {α : Type} {R : α → List String → Prop} {l : List α} {lss : List (List String)}

theorem exists_of_mapM_eq_ok {g : α → Result String} {texts : List String}
    (hg : ∀ a text, g a = .ok text → ∃ ls, R a ls ∧ text = ofLines ls)
    (h : l.mapM g = .ok texts) : ∃ lss, List.Forall₂ R l lss ∧ texts = lss.map ofLines := by
  have hall := forall₂_of_mapM_eq_ok h
  clear h
  induction hall with
  | nil => exact ⟨[], .nil, rfl⟩
  | cons ha _ ih =>
    obtain ⟨ls, hls, rfl⟩ := hg _ _ ha
    obtain ⟨lss, hlss, rfl⟩ := ih
    exact ⟨ls :: lss, .cons hls hlss, rfl⟩

theorem exists_lines_of_mem (h : List.Forall₂ R l lss) {a : α} (ha : a ∈ l) :
    ∃ ls ∈ lss, R a ls := by
  induction h with
  | nil => cases ha
  | cons hab _ ih =>
    obtain rfl | ha := List.mem_cons.mp ha
    · exact ⟨_, by simp, hab⟩
    · obtain ⟨ls, hls, hR⟩ := ih ha
      exact ⟨ls, by simp [hls], hR⟩

theorem filterMap_intercalate {d : String → Option String} {sep : String} (hsep : d sep = none) :
    ([sep].intercalate lss).filterMap d = lss.flatten.filterMap d := by
  induction lss with
  | nil => rfl
  | cons ls lss ih =>
    cases lss with
    | nil => simp
    | cons ls' lss =>
      rw [List.intercalate_cons_cons, List.filterMap_append, List.filterMap_append, ih,
        List.flatten_cons (l := ls), List.filterMap_append, List.filterMap_cons_none hsep,
        List.filterMap_nil, List.append_nil]

theorem infix_intercalate (sep : List String) {ls : List String} (h : ls ∈ lss) :
    ls <:+: sep.intercalate lss := by
  induction lss with
  | nil => cases h
  | cons ls' lss ih =>
    cases lss with
    | nil =>
      rw [List.mem_singleton] at h
      subst h
      rw [List.intercalate_singleton]
    | cons ls'' lss =>
      rw [List.intercalate_cons_cons]
      obtain rfl | h := List.mem_cons.mp h
      · rw [List.append_assoc]
        exact (List.prefix_append _ _).isInfix
      · exact (ih h).trans (List.suffix_append _ _).isInfix

theorem mem_intercalate {sep line : String} (h : line ∈ [sep].intercalate lss) :
    line = sep ∨ ∃ ls ∈ lss, line ∈ ls := by
  induction lss with
  | nil => cases h
  | cons ls lss ih =>
    cases lss with
    | nil =>
      rw [List.intercalate_singleton] at h
      exact .inr ⟨ls, by simp, h⟩
    | cons ls' lss =>
      rw [List.intercalate_cons_cons, List.mem_append, List.mem_append, List.mem_singleton] at h
      obtain (h | h) | h := h
      · exact .inr ⟨ls, by simp, h⟩
      · exact .inl h
      · obtain h | ⟨ls'', hmem, h⟩ := ih h
        · exact .inl h
        · exact .inr ⟨ls'', by simp [hmem], h⟩

end Parts

/-! ## What the parts of a module are printed as -/

def labelLine (functionIndex : Nat) (block : String) : String :=
  localLabel functionIndex block ++ ":"

/-- The lines of the `n`-th block of a function. -/
def PrintsBlock (t : Target) (functionIndex : Nat) (f : Function) (entry : Block × Nat)
    (ls : List String) : Prop :=
  ∃ code, entry.1.instructions.mapM (render t functionIndex f) = .ok code ∧
    ls = (if 0 < entry.2 || mentionsLabel f entry.1.name then
      [labelLine functionIndex entry.1.name] else []) ++ code.map ("\t" ++ ·)

/-- The lines of the `n`-th function of a module. -/
def PrintsFunction (t : Target) (entry : Function × Nat) (ls : List String) : Prop :=
  ∃ lss, List.Forall₂ (PrintsBlock t entry.2 entry.1) entry.1.blocks.zipIdx lss ∧
    ls = (".globl " ++ entry.1.name) :: (entry.1.name ++ ":") :: lss.flatten

def dataLines (d : Data) : List String :=
  (d.name ++ ":") :: d.entries.map fun e => "\t" ++ e.directive ++ "\t" ++ e.argument

def dataSection (m : Machine.Module) : List String :=
  if m.globals.isEmpty then [] else "" :: ".section .data" :: m.globals.flatMap dataLines

variable {t : Target} {functionIndex : Nat} {f : Function} {text : String}

theorem colon_end : ":\n" = ":" ++ "\n" := rfl

theorem join_append_end {α : Type} (g : α → String) (l : List α) :
    String.join (l.map fun a => g a ++ "\n") = ofLines (l.map g) := by
  rw [ofLines, List.map_map]
  rfl

theorem exists_of_emitBlock_eq_ok {block : Block} {n : Nat}
    (h : emitBlock t functionIndex f block (0 < n || mentionsLabel f block.name) = .ok text) :
    ∃ ls, PrintsBlock t functionIndex f (block, n) ls ∧ text = ofLines ls := by
  obtain ⟨code, hcode, h⟩ := bind_eq_ok.mp h
  refine ⟨_, ⟨code, hcode, rfl⟩, ?_⟩
  rw [← pure_eq_ok.mp h, ofLines_append]
  have hjoin : String.join (code.map fun line => s!"\t{line}\n") =
      ofLines (code.map ("\t" ++ ·)) := join_append_end ("\t" ++ ·) code
  rw [hjoin]
  congr 1
  split
  · rw [ofLines_cons, labelLine, String.append_assoc]
    rfl
  · rfl

theorem exists_of_emitFunction_eq_ok (h : emitFunction t functionIndex f = .ok text) :
    ∃ ls, PrintsFunction t (f, functionIndex) ls ∧ text = ofLines ls := by
  obtain ⟨texts, htexts, h⟩ := bind_eq_ok.mp h
  obtain ⟨lss, hlss, rfl⟩ := exists_of_mapM_eq_ok
    (R := PrintsBlock t functionIndex f) (fun e _ he => exists_of_emitBlock_eq_ok he) htexts
  refine ⟨_, ⟨lss, hlss, rfl⟩, ?_⟩
  rw [← pure_eq_ok.mp h, ofLines_cons, ofLines_cons, ofLines_flatten]
  simp only [toString, colon_end, String.append_assoc]

theorem text_data (d : Data) : d.text = ofLines (dataLines d) := by
  have hjoin : String.join (d.entries.map fun e => s!"\t{e.directive}\t{e.argument}\n") =
      ofLines (d.entries.map fun e => "\t" ++ e.directive ++ "\t" ++ e.argument) :=
    join_append_end (fun e : DataEntry => "\t" ++ e.directive ++ "\t" ++ e.argument) d.entries
  rw [Data.text, hjoin, dataLines, ofLines_cons]
  simp only [toString, colon_end, String.append_assoc]

/-- **The text of a module is made of lines.** -/
theorem exists_of_emit_eq_ok {m : Machine.Module} (h : emit t m = .ok text) :
    ∃ lss, List.Forall₂ (PrintsFunction t) m.functions.zipIdx lss ∧
      text = ofLines ([""].intercalate lss ++ dataSection m) := by
  obtain ⟨texts, htexts, h⟩ := bind_eq_ok.mp h
  obtain ⟨lss, hlss, rfl⟩ := exists_of_mapM_eq_ok
    (R := PrintsFunction t) (fun e _ he => exists_of_emitFunction_eq_ok he) htexts
  refine ⟨lss, hlss, ?_⟩
  rw [← pure_eq_ok.mp h, intercalate_ofLines, ofLines_append, dataSection]
  congr 1
  split
  · rfl
  · have hjoin : m.globals.map (·.text) = (m.globals.map dataLines).map ofLines := by
      simp only [List.map_map, Function.comp_def, text_data]
    rw [hjoin, ofLines_cons, ofLines_cons, List.flatMap_def, ofLines_flatten]
    simp only [← String.append_assoc]
    rfl

end Retarget.Assembly
