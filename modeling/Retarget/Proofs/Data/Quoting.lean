import Mathlib.Algebra.GroupWithZero.Nat
import Retarget.Machine.Data

/-!
# Quotations in static data

A text of static data stands between double quotes (`isQuotation_quote`), and undoing the escapes
gives its bytes again (`unquote?_quote`).  Both follow from the three ways in which one byte is
written (`quoteByte_cases`).
-/

namespace Retarget.Machine

/-! ## How an assembler reads a quotation -/

/-- The digit that a character stands for in base eight. -/
def octalValue? (c : Char) : Option Nat :=
  if '0' ≤ c ∧ c ≤ '7' then some (c.toNat - '0'.toNat) else none

/-- The byte that three octal digits stand for. -/
def octalByte? (a b c : Char) : Option UInt8 := do
  let value := 64 * (← octalValue? a) + 8 * (← octalValue? b) + (← octalValue? c)
  if value < 256 then some (UInt8.ofNat value) else none

/-- The byte that a single character behind a backslash stands for. -/
def letterByte? : Char → Option UInt8
  | '\\' => some 0x5c
  | '"' => some 0x22
  | 'n' => some 0x0a
  | 't' => some 0x09
  | _ => none

/-- The character stands for itself: printable, and neither begins an escape nor ends the text. -/
def IsPlain (c : Char) : Prop := ' ' ≤ c ∧ c ≤ '~' ∧ c ≠ '\\' ∧ c ≠ '"'

instance : DecidablePred IsPlain := fun _ => inferInstanceAs (Decidable (_ ∧ _))

def quotedBytes? : List Char → Option (List UInt8)
  | [] => none
  | ['"'] => some []
  | '\\' :: a :: rest =>
    match letterByte? a, rest with
    | some byte, rest => (quotedBytes? rest).map (byte :: ·)
    | none, b :: c :: rest => do
      let byte ← octalByte? a b c
      (quotedBytes? rest).map (byte :: ·)
    | none, _ => none
  | c :: rest =>
    if IsPlain c then (quotedBytes? rest).map (c.toNat.toUInt8 :: ·) else none

def unquote? (text : String) : Option (List UInt8) :=
  match text.toList with
  | '"' :: rest => quotedBytes? rest
  | _ => none

/-! ## One byte -/

theorem octalValue?_octalDigit (b : UInt8) (i : Nat) :
    octalValue? (octalDigit b i) = some (b.toNat / 8 ^ i % 8) := by
  have hdigit : ∀ d < 8, octalValue? (Char.ofNat (48 + d)) = some d := by decide
  rw [octalDigit, Nat.shiftRight_eq_div_pow, Nat.pow_mul]
  exact hdigit _ (Nat.mod_lt _ (by decide))

theorem letterByte?_octalDigit (b : UInt8) (i : Nat) : letterByte? (octalDigit b i) = none := by
  have hdigit : ∀ d < 8, letterByte? (Char.ofNat (48 + d)) = none := by decide
  exact hdigit _ (Nat.mod_lt _ (by decide))

theorem octalByte?_octalDigit (b : UInt8) :
    octalByte? (octalDigit b 2) (octalDigit b 1) (octalDigit b 0) = some b := by
  have hlt := b.toNat_lt
  have hvalue : 64 * (b.toNat / 8 ^ 2 % 8) + 8 * (b.toNat / 8 ^ 1 % 8) + b.toNat / 8 ^ 0 % 8 =
      b.toNat := by omega
  simp only [octalByte?, octalValue?_octalDigit, Option.bind_eq_bind, Option.bind_some, hvalue,
    if_pos hlt, UInt8.ofNat_toNat]

theorem isPlain_ofNat {b : UInt8} (hlow : 0x20 ≤ b) (hhigh : b ≤ 0x7e) (hbackslash : b ≠ 0x5c)
    (hquote : b ≠ 0x22) : IsPlain (Char.ofNat b.toNat) ∧ (Char.ofNat b.toNat).toNat.toUInt8 = b := by
  have hall : ∀ n < 0x7f, (0x20 ≤ n ∧ n ≠ 0x5c ∧ n ≠ 0x22) →
      IsPlain (Char.ofNat n) ∧ (Char.ofNat n).toNat = n := by decide +kernel
  have hne : ∀ c : UInt8, b ≠ c → b.toNat ≠ c.toNat := fun c h heq => h (UInt8.toNat_inj.mp heq)
  obtain ⟨hplain, htoNat⟩ := hall b.toNat (Nat.lt_succ_of_le (UInt8.le_iff_toNat_le.mp hhigh))
    ⟨UInt8.le_iff_toNat_le.mp hlow, hne _ hbackslash, hne _ hquote⟩
  exact ⟨hplain, by rw [htoNat]; exact UInt8.ofNat_toNat⟩

theorem quoteByte_cases (b : UInt8) :
    (∃ letter, quoteByte b = ['\\', letter] ∧ letterByte? letter = some b) ∨
    (∃ c, quoteByte b = [c] ∧ IsPlain c ∧ c.toNat.toUInt8 = b) ∨
    quoteByte b = ['\\', octalDigit b 2, octalDigit b 1, octalDigit b 0] := by
  unfold quoteByte
  split
  · next h => exact .inl ⟨'\\', rfl, by rw [h]; rfl⟩
  split
  · next h => exact .inl ⟨'"', rfl, by rw [h]; rfl⟩
  split
  · next h => exact .inl ⟨'n', rfl, by rw [h]; rfl⟩
  split
  · next h => exact .inl ⟨'t', rfl, by rw [h]; rfl⟩
  split
  · next hbackslash hquote _ _ h =>
    exact .inr (.inl ⟨_, rfl, isPlain_ofNat h.1 h.2 hbackslash hquote⟩)
  · exact .inr (.inr rfl)

theorem mem_letters {c : Char} {b : UInt8} (h : letterByte? c = some b) :
    c ∈ ['\\', '"', 'n', 't'] := by
  unfold letterByte? at h
  split at h <;> simp_all

theorem octalDigit_bounds (b : UInt8) (i : Nat) : '0' ≤ octalDigit b i ∧ octalDigit b i ≤ '7' := by
  have hdigit : ∀ d < 8, '0' ≤ Char.ofNat (48 + d) ∧ Char.ofNat (48 + d) ≤ '7' := by decide
  exact hdigit _ (Nat.mod_lt _ (by decide))

theorem printable_quoteByte {b : UInt8} {c : Char} (hc : c ∈ quoteByte b) : ' ' ≤ c ∧ c ≤ '~' := by
  have hdigit : ∀ i, ' ' ≤ octalDigit b i ∧ octalDigit b i ≤ '~' := fun i =>
    ⟨Char.le_trans (by decide) (octalDigit_bounds b i).1,
      Char.le_trans (octalDigit_bounds b i).2 (by decide)⟩
  obtain ⟨letter, hbyte, hletter⟩ | ⟨plain, hbyte, hplain, -⟩ | hbyte := quoteByte_cases b
  · have hall : ∀ c ∈ ['\\', '"', 'n', 't'], ' ' ≤ c ∧ c ≤ '~' := by simp
    rw [hbyte, List.mem_cons, List.mem_singleton] at hc
    obtain rfl | rfl := hc
    · decide
    · exact hall c (mem_letters hletter)
  · rw [hbyte, List.mem_singleton] at hc
    exact hc ▸ ⟨hplain.1, hplain.2.1⟩
  · rw [hbyte] at hc
    simp only [List.mem_cons, List.not_mem_nil, or_false] at hc
    obtain rfl | rfl | rfl | rfl := hc
    · decide
    · exact hdigit 2
    · exact hdigit 1
    · exact hdigit 0

/-! ## Reading back -/

theorem quotedBytes?_plain {c : Char} (h : IsPlain c) (rest : List Char) :
    quotedBytes? (c :: rest) = (quotedBytes? rest).map (c.toNat.toUInt8 :: ·) := by
  rw [quotedBytes?.eq_def]
  split
  · next heq => cases heq
  · next heq => exact absurd (List.cons.inj heq).1 h.2.2.2
  · next heq => exact absurd (List.cons.inj heq).1 h.2.2.1
  · next heq =>
    cases heq
    exact if_pos h

/-- What one byte is written as is read as that byte, whatever follows: an octal escape has all its
digits, so none of what follows belongs to it. -/
theorem quotedBytes?_quoteByte (b : UInt8) (rest : List Char) :
    quotedBytes? (quoteByte b ++ rest) = (quotedBytes? rest).map (b :: ·) := by
  obtain ⟨letter, hbyte, hletter⟩ | ⟨c, hbyte, hplain, rfl⟩ | hbyte := quoteByte_cases b
  · rw [hbyte, List.cons_append, List.singleton_append, quotedBytes?.eq_def]
    simp only [hletter]
  · rw [hbyte, List.singleton_append, quotedBytes?_plain hplain]
  · simp only [hbyte, List.cons_append, List.nil_append, quotedBytes?, letterByte?_octalDigit,
      octalByte?_octalDigit, Option.bind_eq_bind, Option.bind_some]

theorem quotedBytes?_flatMap (bytes : List UInt8) :
    quotedBytes? (bytes.flatMap quoteByte ++ ['"']) = some bytes := by
  induction bytes with
  | nil => rfl
  | cons b bytes ih =>
    rw [List.flatMap_cons, List.append_assoc, quotedBytes?_quoteByte, ih]
    rfl

theorem toList_quote (s : String) :
    (quote s).toList = '"' :: (s.toUTF8.toList.flatMap quoteByte ++ ['"']) := by
  rw [quote, String.toList_ofList, List.cons_append]

theorem unquote?_quote (s : String) : unquote? (quote s) = some s.toUTF8.toList := by
  rw [unquote?, toList_quote]
  exact quotedBytes?_flatMap _

/-! ## Where quotes stand -/

/-- The characters end with a backslash that no other one pairs with, so that it escapes what
comes next. -/
def EndsUnpaired (cs : List Char) : Prop :=
  (cs.reverse.takeWhile (· == '\\')).length % 2 = 1

/-- A quotation that an assembler takes as one token on one line. -/
structure IsQuotation (text : String) : Prop where
  printable : ∀ c ∈ text.toList, ' ' ≤ c ∧ c ≤ '~'
  /-- Only the first and the last quote stand without an unpaired backslash before them. -/
  quotes : ∃ inner, text.toList = '"' :: (inner ++ ['"']) ∧ ¬ EndsUnpaired inner ∧
    ∀ before after, inner = before ++ '"' :: after → EndsUnpaired before

section Quotes

variable {cs : List Char}

theorem not_endsUnpaired_nil : ¬ EndsUnpaired [] := by
  simp [EndsUnpaired]

theorem endsUnpaired_backslash : EndsUnpaired (cs ++ ['\\']) ↔ ¬ EndsUnpaired cs := by
  simp only [EndsUnpaired, List.reverse_append, List.reverse_singleton, List.singleton_append,
    beq_self_eq_true, List.takeWhile_cons_of_pos, List.length_cons]
  omega

theorem not_endsUnpaired_of_ne {c : Char} (h : c ≠ '\\') : ¬ EndsUnpaired (cs ++ [c]) := by
  simp [EndsUnpaired, h]

theorem not_endsUnpaired_quoteByte (h : ¬ EndsUnpaired cs) (b : UInt8) :
    ¬ EndsUnpaired (cs ++ quoteByte b) := by
  obtain ⟨letter, hbyte, hletter⟩ | ⟨c, hbyte, hplain, -⟩ | hbyte := quoteByte_cases b
  · rw [hbyte, ← List.singleton_append, ← List.append_assoc]
    by_cases hbackslash : letter = '\\'
    · rw [hbackslash, endsUnpaired_backslash, Classical.not_not]
      exact endsUnpaired_backslash.mpr h
    · exact not_endsUnpaired_of_ne hbackslash
  · rw [hbyte]
    exact not_endsUnpaired_of_ne hplain.2.2.1
  · have hdigit : octalDigit b 0 ≠ '\\' := fun heq => by
      have := (octalDigit_bounds b 0).2
      rw [heq] at this
      exact absurd this (by decide)
    rw [hbyte, show ['\\', octalDigit b 2, octalDigit b 1, octalDigit b 0] =
      ['\\', octalDigit b 2, octalDigit b 1] ++ [octalDigit b 0] from rfl, ← List.append_assoc]
    exact not_endsUnpaired_of_ne hdigit

/-- A quote inside what a byte is written as stands behind a single backslash. -/
theorem eq_backslash_of_quoteByte {b : UInt8} {before after : List Char}
    (h : quoteByte b = before ++ '"' :: after) : before = ['\\'] := by
  have hdigit : ∀ i, octalDigit b i ≠ '"' := fun i heq => by
    have := (octalDigit_bounds b i).1
    rw [heq] at this
    exact absurd this (by decide)
  obtain ⟨letter, hbyte, -⟩ | ⟨c, hbyte, hplain, -⟩ | hbyte := quoteByte_cases b
  · rw [hbyte] at h
    match before, h with
    | [], h => cases h
    | [_], h => rw [(List.cons.inj h).1]
    | _ :: _ :: before, h => simp at h
  · have hmem : '"' ∈ quoteByte b := by simp [h]
    rw [hbyte, List.mem_singleton] at hmem
    exact absurd hmem.symm hplain.2.2.2
  · have hmem : '"' ∈ quoteByte b := by simp [h]
    rw [hbyte] at hmem
    simp [(hdigit _).symm] at hmem

/-- Bytes written after `cs` leave nothing escaped, and every quote among them is. -/
theorem quotes_flatMap (h : ¬ EndsUnpaired cs) (bytes : List UInt8) :
    ¬ EndsUnpaired (cs ++ bytes.flatMap quoteByte) ∧
    ∀ before after, bytes.flatMap quoteByte = before ++ '"' :: after →
      EndsUnpaired (cs ++ before) := by
  induction bytes generalizing cs with
  | nil => simpa using h
  | cons b bytes ih =>
    obtain ⟨hend, hquotes⟩ := ih (not_endsUnpaired_quoteByte h b)
    rw [List.flatMap_cons, ← List.append_assoc]
    refine ⟨hend, fun before after heq => ?_⟩
    obtain ⟨mid, hbefore, hafter⟩ | ⟨mid, hbyte, hmid⟩ := List.append_eq_append_iff.mp heq
    · rw [hbefore, ← List.append_assoc]
      exact hquotes mid after hafter
    · cases mid with
      | nil =>
        rw [List.append_nil] at hbyte
        have := hquotes [] after hmid.symm
        rwa [List.append_nil, hbyte] at this
      | cons c mid =>
        obtain ⟨rfl, -⟩ := List.cons.inj hmid
        rw [eq_backslash_of_quoteByte hbyte]
        exact endsUnpaired_backslash.mpr h

end Quotes

theorem isQuotation_quote (s : String) : IsQuotation (quote s) where
  printable c hc := by
    rw [toList_quote, List.mem_cons, List.mem_append, List.mem_singleton, List.mem_flatMap] at hc
    obtain rfl | ⟨b, -, hb⟩ | rfl := hc
    · decide
    · exact printable_quoteByte hb
    · decide
  quotes := ⟨_, toList_quote s, quotes_flatMap not_endsUnpaired_nil _⟩

/-! ## Texts and their bytes -/

theorem toList_byteArray (bytes : ByteArray) : bytes.toList = bytes.data.toList := by
  have hloop (i : Nat) (r : List UInt8) :
      ByteArray.toList.loop bytes i r = r.reverse ++ bytes.data.toList.drop i := by
    induction i, r using ByteArray.toList.loop.induct bytes with
    | case1 i r hi ih =>
      have hget : bytes.get! i = bytes.data.toList[i] := getElem!_pos bytes.data i hi
      rw [ByteArray.toList.loop, if_pos hi, ih, List.drop_eq_getElem_cons hi, hget,
        List.reverse_cons, List.append_assoc, List.singleton_append]
    | case2 i r hi =>
      rw [ByteArray.toList.loop, if_neg hi, List.drop_eq_nil_of_le (Nat.le_of_not_lt hi),
        List.append_nil]
  exact hloop 0 []

theorem toUTF8_toList_injective : Function.Injective fun s : String => s.toUTF8.toList := by
  intro s t h
  simp only [toList_byteArray, String.toUTF8_eq_toByteArray] at h
  exact String.toByteArray_inj.mp (ByteArray.ext (Array.toList_inj.mp h))

/-- **Texts survive quoting.**  A quotation is printable and its inner quotes are escaped, undoing
its escapes gives the bytes of the text, and so no two texts are quoted alike. -/
theorem quote_faithful :
    (∀ s, IsQuotation (quote s) ∧ unquote? (quote s) = some s.toUTF8.toList) ∧
    Function.Injective quote := by
  refine ⟨fun s => ⟨isQuotation_quote s, unquote?_quote s⟩, fun s t h => ?_⟩
  have hbytes : some s.toUTF8.toList = some t.toUTF8.toList := by
    rw [← unquote?_quote, ← unquote?_quote, h]
  exact toUTF8_toList_injective (Option.some.inj hbytes)

end Retarget.Machine
