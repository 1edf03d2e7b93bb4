import Mathlib.Tactic.IntervalCases
import Retarget.Json.Printer
import Retarget.Json.Reader

/-!
# Quoted texts

A text is written between quotes, with an escape for each character that may not stand there, and
read back as it was (`readText?_escaped`).
-/

namespace Retarget.Json

variable {cs rest : List Char}

/-- A control character without a one-letter escape is written as its unit. -/
def isWrittenAsUnit (c : Char) : Bool :=
  c.toNat < 0x20 && decide (c ∉ ['\x08', '\x0c', '\n', '\r', '\t'])

theorem isWrittenAsUnit_iff {c : Char} : isWrittenAsUnit c = true ↔
    c.toNat < 0x20 ∧ c ∉ ['\x08', '\x0c', '\n', '\r', '\t'] := by
  simp [isWrittenAsUnit]

/-- What is read where a character was written. -/
def partOf (c : Char) : TextPart := if isWrittenAsUnit c then .unit c.toNat else .char c

theorem hexUnit?_hexDigit {n : Nat} (h : n < 0x20) :
    hexUnit? '0' '0' (hexDigit (n / 16)) (hexDigit (n % 16)) = some n := by
  interval_cases n <;> rfl

theorem readParts?_letter {c letter : Char} (hletter : letter ≠ 'u')
    (hescaped : escaped? letter = some c) (hpart : isWrittenAsUnit c = false) (rest : List Char) :
    readParts? ('\\' :: letter :: rest) =
      (readParts? rest).map fun x => (partOf c :: x.1, x.2) := by
  rw [readParts?, hescaped, partOf, hpart]
  · cases readParts? rest <;> rfl
  · exact fun _ _ _ _ _ heq => absurd heq hletter

theorem readParts?_escapeChar (c : Char) (rest : List Char) :
    readParts? (escapeChar c ++ rest) = (readParts? rest).map fun x => (partOf c :: x.1, x.2) := by
  by_cases hunit : isWrittenAsUnit c
  · obtain ⟨hlt, hletters⟩ := isWrittenAsUnit_iff.mp hunit
    have hescape : escapeChar c =
        ['\\', 'u', '0', '0', hexDigit (c.toNat / 16), hexDigit (c.toNat % 16)] := by
      have hquote : c ≠ '"' := by
        rintro rfl
        exact absurd hlt (by decide)
      have hbackslash : c ≠ '\\' := by
        rintro rfl
        exact absurd hlt (by decide)
      simp only [List.mem_cons, List.not_mem_nil, or_false, not_or] at hletters
      simp [escapeChar, hquote, hbackslash, hletters, hlt]
    rw [hescape, List.cons_append, List.cons_append, List.cons_append, List.cons_append,
      List.cons_append, List.cons_append, List.nil_append, readParts?, hexUnit?_hexDigit hlt,
      partOf, if_pos hunit]
    cases readParts? rest <;> rfl
  · rw [Bool.not_eq_true] at hunit
    by_cases hspecial : c ∈ ['"', '\\', '\x08', '\x0c', '\n', '\r', '\t']
    · simp only [List.mem_cons, List.not_mem_nil, or_false] at hspecial
      rcases hspecial with rfl | rfl | rfl | rfl | rfl | rfl | rfl <;>
        exact readParts?_letter (by decide) (by decide) (by decide) rest
    · have hlarge : ¬ c.toNat < 0x20 := fun hlt =>
        Bool.eq_false_iff.mp hunit (isWrittenAsUnit_iff.mpr ⟨hlt, fun h => hspecial (by simp_all)⟩)
      simp only [List.mem_cons, List.not_mem_nil, or_false, not_or] at hspecial
      have hescape : escapeChar c = [c] := by simp [escapeChar, hspecial, hlarge]
      rw [hescape, List.singleton_append, readParts?, if_neg hlarge, partOf, hunit]
      · cases readParts? rest <;> rfl
      all_goals simp [hspecial]

/-- A unit that is no surrogate is a character of its own. -/
theorem joinParts?_unit {n : Nat} (hhigh : isHighSurrogate n = false)
    (hlow : isLowSurrogate n = false) (parts : List TextPart) :
    joinParts? (.unit n :: parts) = (joinParts? parts).map (Char.ofNat n :: ·) := by
  cases parts with
  | nil => simp [joinParts?, hhigh, hlow]
  | cons part parts => cases part <;> simp [joinParts?, hhigh, hlow]

theorem joinParts?_map_partOf (cs : List Char) : joinParts? (cs.map partOf) = some cs := by
  induction cs with
  | nil => rfl
  | cons c cs ih =>
    rw [List.map_cons, partOf]
    split
    · next hunit =>
      have hlt := (isWrittenAsUnit_iff.mp hunit).1
      have hhigh : isHighSurrogate c.toNat = false := by simp [isHighSurrogate]; omega
      have hlow : isLowSurrogate c.toNat = false := by simp [isLowSurrogate]; omega
      rw [joinParts?_unit hhigh hlow, ih, Option.map_some, Char.ofNat_toNat]
    · rw [joinParts?, ih]
      rfl

theorem readParts?_flatMap_escapeChar (cs rest : List Char) :
    readParts? (cs.flatMap escapeChar ++ '"' :: rest) = some (cs.map partOf, rest) := by
  induction cs with
  | nil => rfl
  | cons c cs ih =>
    rw [List.flatMap_cons, List.append_assoc, readParts?_escapeChar, ih]
    rfl

/-- **A text is read back as it was.** -/
theorem readText?_escaped (s : String) (rest : List Char) :
    readText? (s.toList.flatMap escapeChar ++ '"' :: rest) = some (some s, rest) := by
  simp [readText?, readParts?_flatMap_escapeChar, joinParts?_map_partOf]

theorem toList_textOf (s : String) :
    (textOf s).toList = '"' :: (s.toList.flatMap escapeChar ++ ['"']) := by
  rw [textOf, String.toList_ofList, List.cons_append]

end Retarget.Json
