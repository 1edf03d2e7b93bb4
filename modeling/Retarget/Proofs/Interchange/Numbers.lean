import Mathlib.Data.List.TakeWhile
import Retarget.Json.Reader

/-!
# Number tokens

A number is read up to the first character that cannot go on with it, whatever comes behind
(`readNumberToken?_append`).  An integer of 64 bits, signed or not, is written as a token that stands
for it (`readNumberToken?_integer`).
-/

namespace Retarget.Json

variable {cs ds rest suffix : List Char} {t : NumberToken} {n : Nat}

/-- What follows does not go on with a number. -/
def EndsNumber (suffix : List Char) : Prop :=
  ∀ c ∈ suffix.head?, c.isDigit = false ∧ c ≠ '.' ∧ c ≠ 'e' ∧ c ≠ 'E'

theorem endsNumber_nil : EndsNumber [] := by
  simp [EndsNumber]

theorem EndsNumber.not_isDigit (h : EndsNumber suffix) :
    ∀ c ∈ suffix.head?, c.isDigit = false :=
  fun c hc => (h c hc).1

/-! ## What follows a token -/

theorem takeWhile_append_of_head {p : Char → Bool} (h : ∀ c ∈ suffix.head?, p c = false)
    (cs : List Char) : (cs ++ suffix).takeWhile p = cs.takeWhile p ∧
      (cs ++ suffix).dropWhile p = cs.dropWhile p ++ suffix := by
  induction cs with
  | nil =>
    cases suffix with
    | nil => exact ⟨rfl, rfl⟩
    | cons c suffix => simp [h c rfl]
  | cons c cs ih =>
    cases hc : p c with
    | true => simp [hc, ih]
    | false => simp [hc]

theorem readDigits?_append (hend : ∀ c ∈ suffix.head?, c.isDigit = false)
    (h : readDigits? cs = some (ds, rest)) :
    readDigits? (cs ++ suffix) = some (ds, rest ++ suffix) := by
  obtain ⟨htake, hdrop⟩ := takeWhile_append_of_head hend cs
  rw [readDigits?] at h ⊢
  rw [htake, hdrop]
  split at h
  · cases h
  · next hne =>
    cases h
    exact if_neg hne

theorem readFraction?_append {fraction : Option (List Char)} (hend : EndsNumber suffix)
    (h : readFraction? cs = some (fraction, rest)) :
    readFraction? (cs ++ suffix) = some (fraction, rest ++ suffix) := by
  rw [readFraction?.eq_def] at h
  split at h
  · next cs =>
    obtain ⟨⟨ds, rest'⟩, hdigits, h⟩ := Option.map_eq_some_iff.mp h
    cases h
    rw [List.cons_append, readFraction?, readDigits?_append hend.not_isDigit hdigits]
    rfl
  · next hpoint =>
    cases h
    rw [readFraction?.eq_def]
    split
    · next cs' heq =>
      cases cs with
      | nil =>
        rw [List.nil_append] at heq
        exact absurd rfl (hend '.' (by rw [heq]; rfl)).2.1
      | cons c cs => exact absurd (by rw [(List.cons.inj heq).1]) (hpoint cs)
    · rfl

theorem readPower?_append {isNegative : Bool} {power : Int} (hend : EndsNumber suffix)
    (h : readPower? isNegative cs = some (power, rest)) :
    readPower? isNegative (cs ++ suffix) = some (power, rest ++ suffix) := by
  obtain ⟨⟨ds, rest'⟩, hdigits, h⟩ := Option.map_eq_some_iff.mp h
  cases h
  rw [readPower?, readDigits?_append hend.not_isDigit hdigits]
  rfl

theorem readExponent?_append {exponent : Option Int} (hend : EndsNumber suffix)
    (h : readExponent? cs = some (exponent, rest)) :
    readExponent? (cs ++ suffix) = some (exponent, rest ++ suffix) := by
  rw [readExponent?.eq_def] at h
  rw [readExponent?.eq_def]
  cases cs with
  | nil =>
    cases h
    cases suffix with
    | nil => rfl
    | cons c suffix =>
      obtain ⟨-, -, he, hE⟩ := hend c rfl
      exact if_neg (by simp [he, hE])
  | cons c cs =>
    dsimp only [List.cons_append] at h ⊢
    split at h
    · next hmark =>
      rw [if_pos hmark]
      obtain ⟨⟨power, rest'⟩, hpower, h⟩ := Option.map_eq_some_iff.mp h
      cases h
      refine Option.map_eq_some_iff.mpr ⟨(power, rest' ++ suffix), ?_, rfl⟩
      split at hpower
      · exact readPower?_append hend hpower
      · exact readPower?_append hend hpower
      · next hplus hminus =>
        cases cs with
        | nil => cases hpower
        | cons c cs =>
          rw [List.cons_append]
          split
          · next heq => exact absurd (by rw [(List.cons.inj heq).1]) (hplus cs)
          · next heq => exact absurd (by rw [(List.cons.inj heq).1]) (hminus cs)
          · exact readPower?_append hend hpower
    · next hmark =>
      rw [if_neg hmark]
      cases h
      rfl

theorem readWhole?_append (hend : EndsNumber suffix) (h : readWhole? cs = some (ds, rest)) :
    readWhole? (cs ++ suffix) = some (ds, rest ++ suffix) := by
  obtain ⟨⟨ds', rest'⟩, hdigits, h⟩ := Option.bind_eq_some_iff.mp h
  rw [readWhole?, readDigits?_append hend.not_isDigit hdigits]
  dsimp only at h
  split at h
  · cases h
  · next hzero =>
    cases h
    exact if_neg hzero

/-- A token behind its sign. -/
def readUnsigned? (isNegative : Bool) (cs : List Char) : Option (NumberToken × List Char) := do
  let (whole, cs) ← readWhole? cs
  let (fraction, cs) ← readFraction? cs
  let (exponent, cs) ← readExponent? cs
  return (⟨isNegative, whole, fraction, exponent⟩, cs)

theorem readNumberToken?_minus (cs : List Char) :
    readNumberToken? ('-' :: cs) = readUnsigned? true cs := rfl

theorem readNumberToken?_of_ne (h : ∀ cs', cs ≠ '-' :: cs') :
    readNumberToken? cs = readUnsigned? false cs := by
  rw [readNumberToken?.eq_def]
  split
  next heq =>
    split at heq
    · exact absurd rfl (h _)
    · cases heq
      rfl

theorem readUnsigned?_append {isNegative : Bool} (hend : EndsNumber suffix)
    (h : readUnsigned? isNegative cs = some (t, rest)) :
    readUnsigned? isNegative (cs ++ suffix) = some (t, rest ++ suffix) := by
  obtain ⟨⟨whole, cs₁⟩, hwhole, h⟩ := Option.bind_eq_some_iff.mp h
  obtain ⟨⟨fraction, cs₂⟩, hfraction, h⟩ := Option.bind_eq_some_iff.mp h
  obtain ⟨⟨exponent, cs₃⟩, hexponent, h⟩ := Option.bind_eq_some_iff.mp h
  cases h
  simp [readUnsigned?, readWhole?_append hend hwhole, readFraction?_append hend hfraction,
    readExponent?_append hend hexponent]

theorem exists_cons_of_readNumberToken? (h : readNumberToken? cs = some (t, rest)) :
    ∃ c cs', cs = c :: cs' ∧ (c = '-' ∨ c.isDigit = true) := by
  cases cs with
  | nil => cases h
  | cons c cs' =>
    refine ⟨c, cs', rfl, ?_⟩
    by_contra hno
    rw [not_or, Bool.not_eq_true] at hno
    rw [readNumberToken?_of_ne fun _ heq => hno.1 (List.cons.inj heq).1] at h
    obtain ⟨_, hwhole, -⟩ := Option.bind_eq_some_iff.mp h
    simp [readWhole?, readDigits?, hno.2] at hwhole

/-- **A token is read whatever comes behind it**, unless that goes on with the number. -/
theorem readNumberToken?_append (hend : EndsNumber suffix)
    (h : readNumberToken? cs = some (t, rest)) :
    readNumberToken? (cs ++ suffix) = some (t, rest ++ suffix) := by
  obtain ⟨c, cs', rfl, -⟩ := exists_cons_of_readNumberToken? h
  by_cases hc : c = '-'
  · subst hc
    rw [readNumberToken?_minus] at h
    exact readUnsigned?_append hend h
  · have hne : ∀ cs cs', c :: cs ≠ '-' :: cs' := fun _ _ heq => hc (List.cons.inj heq).1
    rw [readNumberToken?_of_ne (hne _)] at h
    rw [List.cons_append, readNumberToken?_of_ne (hne _)]
    exact readUnsigned?_append hend h

/-! ## Integers -/

theorem head?_toDigits (n : Nat) (h : (Nat.toDigits 10 n).head? = some '0') : n = 0 := by
  induction n using Nat.strongRecOn with
  | ind n ih =>
    by_cases hlt : n < 10
    · rw [Nat.toDigits_of_lt_base hlt] at h
      exact Nat.digitChar_eq_zero.mp (Option.some.inj h)
    · rw [Nat.toDigits_of_base_le (by omega) (by omega), List.head?_append] at h
      obtain ⟨c, hc⟩ := Option.ne_none_iff_exists'.mp
        (mt List.head?_eq_none_iff.mp (Nat.toDigits_ne_nil (b := 10) (n := n / 10)))
      rw [hc, Option.some_or] at h
      have := ih (n / 10) (by omega) (hc.trans h)
      omega

/-- The digits of a number are read back as its whole part. -/
theorem readWhole?_toDigits (n : Nat) :
    readWhole? (Nat.toDigits 10 n) = some (Nat.toDigits 10 n, []) := by
  have hdigits : ∀ c ∈ Nat.toDigits 10 n, c.isDigit = true :=
    fun c hc => Nat.isDigit_of_mem_toDigits (by omega) (by omega) hc
  have hread : readDigits? (Nat.toDigits 10 n) = some (Nat.toDigits 10 n, []) := by
    rw [readDigits?, List.takeWhile_eq_self_iff.mpr hdigits, List.dropWhile_eq_nil_iff.mpr hdigits]
    exact if_neg (by simp)
  rw [readWhole?, hread]
  refine if_neg ?_
  rintro ⟨hzero, hlength⟩
  rw [head?_toDigits n hzero] at hlength
  exact hlength rfl

theorem digitsValue_toDigits (n : Nat) : digitsValue (Nat.toDigits 10 n) = n :=
  Nat.ofDigitChars_ten_toDigits

theorem readUnsigned?_toDigits (isNegative : Bool) (n : Nat) :
    readUnsigned? isNegative (Nat.toDigits 10 n) =
      some (⟨isNegative, Nat.toDigits 10 n, none, none⟩, []) := by
  rw [readUnsigned?, readWhole?_toDigits]
  rfl

theorem value_natural {n : Nat} (h : n < Word.modulus 64) :
    (⟨false, Nat.toDigits 10 n, none, none⟩ : NumberToken).value = .integer n := by
  rw [NumberToken.value, NumberToken.integer?, digitsValue_toDigits]
  simp [h]

theorem value_negative {n : Nat} (hpos : 0 < n) (h : n ≤ Word.modulus 63) :
    (⟨true, Nat.toDigits 10 n, none, none⟩ : NumberToken).value = .integer (-n) := by
  rw [NumberToken.value, NumberToken.integer?, digitsValue_toDigits]
  simp [hpos, h]

/-- **An integer of 64 bits is written as a token that stands for it.** -/
theorem readNumberToken?_integer {n : Int} (hmin : -Word.modulus 63 ≤ n)
    (hmax : n < Word.modulus 64) :
    ∃ t, readNumberToken? (toString n).toList = some (t, []) ∧ t.value = .integer n := by
  rw [show toString n = n.repr from rfl, Int.repr_eq_if]
  split
  · next hpos =>
    rw [Nat.repr_eq_ofList_toDigits, String.toList_ofList]
    refine ⟨_, (readNumberToken?_of_ne fun cs heq => ?_).trans (readUnsigned?_toDigits false _), ?_⟩
    · have hminus := Nat.isDigit_of_mem_toDigits (b := 10) (n := n.toNat) (c := '-') (by omega)
        (by omega) (by simp [heq])
      simp at hminus
    · rw [value_natural (by omega), Int.toNat_of_nonneg hpos]
  · next hneg =>
    rw [Nat.repr_eq_ofList_toDigits, String.toList_append, String.toList_ofList,
      String.toList_ofList, List.singleton_append, readNumberToken?_minus]
    refine ⟨_, readUnsigned?_toDigits true _, ?_⟩
    rw [value_negative (by omega) (by omega), Int.toNat_of_nonneg (by omega), Int.neg_neg]

end Retarget.Json
