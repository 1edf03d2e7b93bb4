import Mathlib.Data.List.Forall2
import Retarget.Proofs.Interchange.Numbers
import Retarget.Proofs.Interchange.Texts

/-!
# JSON trees

A tree of integers of 64 bits and of numbers that read back as themselves is printed on several
lines as a text that reads back as the tree (`parse?_pretty`).  What a part of a text reads as does
not depend on what follows it (`Reads`), so the items of an array and the members of an object are
read back one by one.
-/

namespace Retarget.Json

variable {cs rest suffix closing inner : List Char} {j : Json} {x : Float} {fuel : Nat}

theorem mapM_map_eq_some {α β : Type} {read : β → Option α} {write : α → β} {as : List α}
    (h : ∀ a ∈ as, read (write a) = some a) : (as.map write).mapM read = some as := by
  induction as with
  | nil => rfl
  | cons a as ih =>
    obtain ⟨ha, has⟩ := List.forall_mem_cons.mp h
    simp [ha, ih has]

/-! ## Blanks -/

def Blank (cs : List Char) : Prop := ∀ c ∈ cs, isBlank c = true

theorem skipBlanks_append (h : Blank inner) (cs : List Char) :
    skipBlanks (inner ++ cs) = skipBlanks cs :=
  List.dropWhile_append_of_pos h

theorem skipBlanks_cons {c : Char} (h : isBlank c = false) (cs : List Char) :
    skipBlanks (c :: cs) = c :: cs := by
  simp [skipBlanks, h]

theorem blank_newline (level : Nat) : Blank (newline level).toList := by
  intro c hc
  rw [newline, String.toList_ofList, List.mem_cons, List.mem_replicate] at hc
  rcases hc with rfl | ⟨-, rfl⟩ <;> rfl

theorem endsNumber_newline (level : Nat) (cs : List Char) :
    EndsNumber ((newline level).toList ++ cs) := by
  rw [newline, String.toList_ofList]
  rintro c ⟨⟩
  decide

theorem endsNumber_comma (cs : List Char) : EndsNumber (',' :: cs) := by
  rintro c ⟨⟩
  decide

/-! ## Parts of a text -/

/-- The characters read as the value, whatever follows that does not go on with a number. -/
def Reads (cs : List Char) (j : Json) : Prop :=
  ∀ fuel suffix, cs.length < fuel → EndsNumber suffix →
    ∃ rest, readValue? fuel (cs ++ suffix) = some (j, rest) ∧ skipBlanks rest = skipBlanks suffix

theorem skipBlanks_eq_nil_iff : skipBlanks cs = [] ↔ Blank cs :=
  List.dropWhile_eq_nil_iff

theorem Reads.parse? {s : String} (h : Reads s.toList j) : parse? s = some j := by
  obtain ⟨rest, hread, hrest⟩ := h (s.toList.length + 1) [] (Nat.lt_succ_self _) endsNumber_nil
  rw [List.append_nil] at hread
  rw [show skipBlanks [] = [] from rfl] at hrest
  simp [Json.parse?, hread, hrest]

theorem skipBlanks_skipBlanks (cs : List Char) : skipBlanks (skipBlanks cs) = skipBlanks cs := by
  have hblank : Blank (cs.takeWhile isBlank) := fun c hc => List.mem_takeWhile_imp hc
  conv_rhs => rw [← List.takeWhile_append_dropWhile (p := isBlank) (l := cs)]
  exact (skipBlanks_append hblank _).symm

theorem readValue?_skipBlanks (fuel : Nat) (cs : List Char) :
    readValue? fuel (skipBlanks cs) = readValue? fuel cs := by
  cases fuel with
  | zero => rfl
  | succ fuel =>
    rw [readValue?.eq_def, readValue?.eq_def (fuel + 1) cs]
    dsimp only
    rw [skipBlanks_skipBlanks]

theorem readValue?_blanks (h : Blank inner) (fuel : Nat) (cs : List Char) :
    readValue? fuel (inner ++ cs) = readValue? fuel cs := by
  rw [← readValue?_skipBlanks, skipBlanks_append h, readValue?_skipBlanks]

/-! ## Numbers -/

theorem isBlank_eq_false {c : Char} (h : c = '-' ∨ c.isDigit = true) : isBlank c = false := by
  rw [Bool.eq_false_iff]
  intro hblank
  simp only [isBlank, Bool.or_eq_true, beq_iff_eq] at hblank
  rcases hblank with ((rfl | rfl) | rfl) | rfl <;> simp at h

theorem readValue?_of_token {t : NumberToken}
    (h : readNumberToken? (skipBlanks cs) = some (t, rest)) (fuel : Nat) :
    readValue? (fuel + 1) cs = some (t.value, rest) := by
  obtain ⟨c, cs', hcs, hc⟩ := exists_cons_of_readNumberToken? h
  have hhead : ∀ {c' : Char} {cs''}, skipBlanks cs = c' :: cs'' → ¬ (c' = '-' ∨ c'.isDigit = true) →
      False := by
    intro c' cs'' heq hno
    rw [hcs] at heq
    exact hno ((List.cons.inj heq).1 ▸ hc)
  rw [readValue?.eq_def]
  dsimp only
  split
  case h_7 => rw [h]; rfl
  all_goals next heq => exact (hhead heq (by decide)).elim

theorem exists_token_of_readValue? (h : readValue? (fuel + 1) cs = some (.float x, rest)) :
    ∃ t, readNumberToken? (skipBlanks cs) = some (t, rest) ∧ t.value = .float x := by
  rw [readValue?.eq_def] at h
  dsimp only at h
  split at h
  case h_7 =>
    obtain ⟨⟨t, rest'⟩, ht, h⟩ := Option.map_eq_some_iff.mp h
    obtain ⟨hvalue, rfl⟩ := Prod.mk.inj h
    exact ⟨t, ht, hvalue⟩
  case h_4 =>
    obtain ⟨⟨text, rest'⟩, -, h⟩ := Option.bind_eq_some_iff.mp h
    cases text <;> cases h
  case h_5 =>
    split at h
    · cases h
    · obtain ⟨⟨items, rest'⟩, -, h⟩ := Option.bind_eq_some_iff.mp h
      cases h
  case h_6 =>
    split at h
    · cases h
    · obtain ⟨⟨members, rest'⟩, -, h⟩ := Option.bind_eq_some_iff.mp h
      have hvalue := (Prod.mk.inj (Option.some.inj h)).1
      dsimp only [ofMembers] at hvalue
      split at hvalue <;> cases hvalue
  all_goals cases h

theorem reads_of_token {t : NumberToken} (h : readNumberToken? cs = some (t, [])) :
    Reads cs t.value := by
  intro fuel suffix hfuel hend
  obtain ⟨c, cs', rfl, hc⟩ := exists_cons_of_readNumberToken? h
  obtain ⟨fuel, rfl⟩ : ∃ n, fuel = n + 1 := ⟨fuel - 1, by omega⟩
  refine ⟨suffix, readValue?_of_token ?_ fuel, rfl⟩
  rw [List.cons_append, skipBlanks_cons (isBlank_eq_false hc)]
  exact readNumberToken?_append hend h

/-- A number whose text reads back as the number does so in front of anything. -/
theorem reads_float {s : String} (h : Json.parse? s = some (.float x)) :
    Reads s.toList (.float x) := by
  obtain ⟨⟨value, rest⟩, hread, h⟩ := Option.bind_eq_some_iff.mp h
  dsimp only at h
  split at h
  · next hblank =>
    cases h
    obtain ⟨t, ht, hvalue⟩ := exists_token_of_readValue? hread
    intro fuel suffix hfuel hend
    obtain ⟨fuel, rfl⟩ : ∃ n, fuel = n + 1 := ⟨fuel - 1, by omega⟩
    refine ⟨rest ++ suffix, hvalue ▸ readValue?_of_token ?_ fuel, ?_⟩
    · obtain ⟨c, cs', hcs, -⟩ := exists_cons_of_readNumberToken? ht
      have happend : skipBlanks (s.toList ++ suffix) = skipBlanks s.toList ++ suffix := by
        rw [skipBlanks] at hcs ⊢
        rw [skipBlanks, List.dropWhile_append, hcs]
        rfl
      rw [happend]
      exact readNumberToken?_append hend ht
    · exact skipBlanks_append (skipBlanks_eq_nil_iff.mp (List.isEmpty_iff.mp hblank)) suffix
  · cases h

theorem reads_integer {n : Int} (hmin : -Word.modulus 63 ≤ n) (hmax : n < Word.modulus 64) :
    Reads (toString n).toList (.integer n) := by
  obtain ⟨t, ht, hvalue⟩ := readNumberToken?_integer hmin hmax
  exact hvalue ▸ reads_of_token ht

/-! ## Words and texts -/

/-- A value that is read from a text without blanks in front, and up to its end. -/
theorem reads_of_exact {cs : List Char}
    (h : ∀ fuel suffix, readValue? (fuel + 1) (cs ++ suffix) = some (j, suffix)) : Reads cs j := by
  intro fuel suffix hfuel _
  obtain ⟨fuel, rfl⟩ : ∃ n, fuel = n + 1 := ⟨fuel - 1, by omega⟩
  exact ⟨suffix, h fuel suffix, rfl⟩

theorem reads_null : Reads "null".toList .null :=
  reads_of_exact fun _ _ => rfl

theorem reads_bool (b : Bool) : Reads (compact (.bool b)).toList (.bool b) := by
  cases b <;> exact reads_of_exact fun _ _ => rfl

theorem reads_textOf (s : String) : Reads (textOf s).toList (.str s) := by
  refine reads_of_exact fun fuel suffix => ?_
  rw [toList_textOf, List.cons_append, List.append_assoc, List.singleton_append, readValue?.eq_def]
  dsimp only
  rw [skipBlanks_cons rfl]
  simp [readText?_escaped]

/-! ## Arrays -/

theorem readItems?_skipBlanks (fuel : Nat) (cs : List Char) :
    readItems? fuel (skipBlanks cs) = readItems? fuel cs := by
  cases fuel with
  | zero => rfl
  | succ fuel => rw [readItems?, readItems?, readValue?_skipBlanks]

theorem readNumberToken?_close (cs : List Char) : readNumberToken? (']' :: cs) = none := by
  refine Option.eq_none_iff_forall_ne_some.mpr fun x hx => ?_
  obtain ⟨c, cs', heq, hc⟩ := exists_cons_of_readNumberToken? hx
  rw [← (List.cons.inj heq).1] at hc
  exact absurd hc (by decide)

theorem readValue?_close (fuel : Nat) (cs : List Char) : readValue? fuel (']' :: cs) = none := by
  cases fuel with
  | zero => rfl
  | succ fuel =>
    rw [readValue?.eq_def]
    dsimp only
    rw [skipBlanks_cons rfl]
    split
    case h_7 => rw [readNumberToken?_close]; rfl
    all_goals next heq => exact absurd (List.cons.inj heq).1 (by decide)

theorem readValue?_bracket {items : List Json} (h : readItems? fuel cs = some (items, rest)) :
    readValue? (fuel + 1) ('[' :: cs) = some (.arr items, rest) := by
  rw [readValue?.eq_def]
  simp only [skipBlanks_cons (c := '[') rfl]
  rw [← readItems?_skipBlanks] at h
  split
  · next heq =>
    rw [heq] at h
    cases fuel with
    | zero => cases h
    | succ fuel => simp [readItems?, readValue?_close] at h
  · rw [h]
    rfl

theorem readItems?_intercalate {parts : List (List Char)} {items : List Json}
    (hreads : List.Forall₂ Reads parts items) (hne : items ≠ []) (hinner : Blank inner)
    (hclosing : Blank closing) (hend : EndsNumber (closing ++ ']' :: suffix))
    (hfuel : ((',' :: inner).intercalate parts).length + 1 < fuel) :
    readItems? fuel (inner ++ ((',' :: inner).intercalate parts ++ (closing ++ ']' :: suffix))) =
      some (items, suffix) := by
  induction hreads generalizing fuel with
  | nil => exact absurd rfl hne
  | @cons part item parts items hread hreads ih =>
    obtain ⟨fuel, rfl⟩ : ∃ n, fuel = n + 1 := ⟨fuel - 1, by omega⟩
    cases hreads with
    | nil =>
      rw [List.intercalate_singleton] at hfuel ⊢
      obtain ⟨rest, hvalue, hrest⟩ := hread fuel _ (by omega) hend
      rw [skipBlanks_append hclosing, skipBlanks_cons rfl] at hrest
      rw [readItems?, readValue?_blanks hinner, hvalue]
      simp [hrest]
    | @cons next _ others _ hnext hothers =>
      rw [List.intercalate_cons_cons] at hfuel ⊢
      simp only [List.length_append, List.length_cons] at hfuel
      obtain ⟨rest, hvalue, hrest⟩ := hread fuel (',' :: (inner ++
        ((',' :: inner).intercalate (next :: others) ++ (closing ++ ']' :: suffix)))) (by omega)
        (endsNumber_comma _)
      rw [skipBlanks_cons rfl] at hrest
      have hrestFuel : ((',' :: inner).intercalate (next :: others)).length + 1 < fuel := by omega
      have hmore := ih (by simp) hrestFuel
      simp only [List.append_assoc, List.cons_append]
      rw [readItems?, readValue?_blanks hinner, hvalue]
      simp [hrest, hmore]

/-! ## Objects -/

theorem skipBlanks_textOf (hinner : Blank inner) (name : String) (cs : List Char) :
    skipBlanks (inner ++ ((textOf name).toList ++ cs)) =
      '"' :: (name.toList.flatMap escapeChar ++ '"' :: cs) := by
  rw [skipBlanks_append hinner, toList_textOf, List.cons_append, skipBlanks_cons rfl,
    List.append_assoc, List.singleton_append]

theorem readValue?_space (fuel : Nat) (cs : List Char) :
    readValue? fuel (' ' :: cs) = readValue? fuel cs :=
  readValue?_blanks (by simp [Blank, isBlank] : Blank [' ']) fuel cs

theorem readMembers?_last {name : String} {value : Json} {cs' : List Char} (hinner : Blank inner)
    (hvalue : readValue? fuel cs = some (value, cs')) (hend : skipBlanks cs' = '\x7d' :: rest) :
    readMembers? (fuel + 1) (inner ++ ((textOf name).toList ++ ':' :: ' ' :: cs)) =
      some ([(some name, value)], rest) := by
  rw [readMembers?, skipBlanks_textOf hinner]
  simp [readText?_escaped, skipBlanks_cons (c := ':') rfl, readValue?_space, hvalue, hend]

theorem readMembers?_cons {name : String} {value : Json} {cs' more : List Char}
    {members : List (Option String × Json)} (hinner : Blank inner)
    (hvalue : readValue? fuel cs = some (value, cs')) (hcomma : skipBlanks cs' = ',' :: more)
    (hmore : readMembers? fuel more = some (members, rest)) :
    readMembers? (fuel + 1) (inner ++ ((textOf name).toList ++ ':' :: ' ' :: cs)) =
      some ((some name, value) :: members, rest) := by
  rw [readMembers?, skipBlanks_textOf hinner]
  simp [readText?_escaped, skipBlanks_cons (c := ':') rfl, readValue?_space, hvalue, hcomma, hmore]

theorem readMembers?_skipBlanks (fuel : Nat) (cs : List Char) :
    readMembers? fuel (skipBlanks cs) = readMembers? fuel cs := by
  cases fuel with
  | zero => rfl
  | succ fuel =>
    rw [readMembers?.eq_def, readMembers?.eq_def (fuel + 1) cs]
    dsimp only
    rw [skipBlanks_skipBlanks]

theorem readValue?_brace {members : List (String × Json)}
    (h : readMembers? fuel cs = some (members.map fun m => (some m.1, m.2), rest)) :
    readValue? (fuel + 1) ('\x7b' :: cs) = some (.obj members, rest) := by
  have hnames : (members.map fun m => (some m.1, m.2)).mapM
      (fun (m : Option String × Json) => m.1.map fun name => (name, m.2)) = some members :=
    mapM_map_eq_some fun _ _ => rfl
  rw [readValue?.eq_def]
  simp only [skipBlanks_cons (c := '\x7b') rfl]
  rw [← readMembers?_skipBlanks] at h
  split
  · next heq =>
    rw [heq] at h
    cases fuel with
    | zero => cases h
    | succ fuel => simp [readMembers?, skipBlanks_cons (c := '\x7d') rfl] at h
  · rw [h]
    simp [ofMembers, hnames]

def ReadsMember (part : List Char) (m : String × Json) : Prop :=
  ∃ cs, part = (textOf m.1).toList ++ ':' :: ' ' :: cs ∧ Reads cs m.2

/-- The members of an object are read back, with blanks in front of each and behind the last one. -/
theorem readMembers?_intercalate {parts : List (List Char)} {members : List (String × Json)}
    (hreads : List.Forall₂ ReadsMember parts members) (hne : members ≠ []) (hinner : Blank inner)
    (hclosing : Blank closing) (hend : EndsNumber (closing ++ '\x7d' :: suffix))
    (hfuel : ((',' :: inner).intercalate parts).length + 1 < fuel) :
    readMembers? fuel
        (inner ++ ((',' :: inner).intercalate parts ++ (closing ++ '\x7d' :: suffix))) =
      some (members.map fun m => (some m.1, m.2), suffix) := by
  induction hreads generalizing fuel with
  | nil => exact absurd rfl hne
  | @cons part m parts members hread hreads ih =>
    obtain ⟨fuel, rfl⟩ : ∃ n, fuel = n + 1 := ⟨fuel - 1, by omega⟩
    obtain ⟨cs, rfl, hread⟩ := hread
    cases hreads with
    | nil =>
      rw [List.intercalate_singleton] at hfuel ⊢
      simp only [List.length_append, List.length_cons] at hfuel
      obtain ⟨rest, hvalue, hrest⟩ := hread fuel _ (by omega) hend
      rw [skipBlanks_append hclosing, skipBlanks_cons rfl] at hrest
      simp only [List.append_assoc, List.cons_append]
      exact readMembers?_last hinner hvalue hrest
    | @cons next _ others _ hnext hothers =>
      rw [List.intercalate_cons_cons] at hfuel ⊢
      simp only [List.length_append, List.length_cons] at hfuel
      obtain ⟨rest, hvalue, hrest⟩ := hread fuel (',' :: (inner ++
        ((',' :: inner).intercalate (next :: others) ++ (closing ++ '\x7d' :: suffix)))) (by omega)
        (endsNumber_comma _)
      rw [skipBlanks_cons rfl] at hrest
      have hrestFuel : ((',' :: inner).intercalate (next :: others)).length + 1 < fuel := by omega
      have hmore := ih (by simp) hrestFuel
      simp only [List.append_assoc, List.cons_append]
      exact readMembers?_cons hinner hvalue hrest hmore

/-! ## Trees -/

/-- Reading the text of the number gives the number back. -/
def ReadsBack (x : Float) : Prop := parse? (floatText x) = some (.float x)

/-- The tree consists of values that a text can stand for: integers of 64 bits, and numbers whose
text reads back. -/
inductive Readable : Json → Prop
  | null : Readable .null
  | bool (b : Bool) : Readable (.bool b)
  | integer {n : Int} (hmin : -Word.modulus 63 ≤ n) (hmax : n < Word.modulus 64) :
    Readable (.integer n)
  | float {x : Float} (h : ReadsBack x) : Readable (.float x)
  | str (s : String) : Readable (.str s)
  | arr {items : List Json} (h : ∀ j ∈ items, Readable j) : Readable (.arr items)
  | obj {members : List (String × Json)} (h : ∀ m ∈ members, Readable m.2) :
    Readable (.obj members)

theorem prettyItems_eq_map (level : Nat) (items : List Json) :
    prettyItems level items = items.map (prettyAt level) := by
  induction items with
  | nil => rfl
  | cons j items ih => rw [prettyItems, ih, List.map_cons]

theorem prettyMembers_eq_map (level : Nat) (members : List (String × Json)) :
    prettyMembers level members =
      members.map fun m => textOf m.1 ++ ": " ++ prettyAt level m.2 := by
  induction members with
  | nil => rfl
  | cons m members ih =>
    obtain ⟨name, j⟩ := m
    rw [prettyMembers, ih, List.map_cons]

theorem toList_enclose {level : Nat} {opening closing : String} {o c : Char} {parts : List String}
    (ho : opening.toList = [o]) (hc : closing.toList = [c]) (hne : parts ≠ []) :
    (enclose level opening closing parts).toList = o :: ((newline (level + 1)).toList ++
      ((',' :: (newline (level + 1)).toList).intercalate (parts.map String.toList) ++
        ((newline level).toList ++ [c]))) := by
  rw [enclose, if_neg (by simpa using hne)]
  simp [String.toList_intercalate, ho, hc]
  rfl

theorem toList_enclose_nil {level : Nat} {opening closing : String} {o c : Char}
    (ho : opening.toList = [o]) (hc : closing.toList = [c]) :
    (enclose level opening closing []).toList = [o, c] := by
  simp [enclose, ho, hc]

theorem reads_arr {level : Nat} {parts : List String} {items : List Json}
    (h : List.Forall₂ Reads (parts.map String.toList) items) :
    Reads (enclose level "[" "]" parts).toList (.arr items) := by
  by_cases hne : items = []
  · subst hne
    rw [List.forall₂_nil_right_iff, List.map_eq_nil_iff] at h
    rw [h, toList_enclose_nil (o := '[') (c := ']') rfl rfl]
    exact reads_of_exact fun _ _ => rfl
  · intro fuel suffix hfuel _
    obtain ⟨fuel, rfl⟩ : ∃ n, fuel = n + 1 := ⟨fuel - 1, by omega⟩
    have hparts : parts ≠ [] := by
      rintro rfl
      exact hne (List.forall₂_nil_left_iff.mp h)
    rw [toList_enclose (o := '[') (c := ']') rfl rfl hparts] at hfuel ⊢
    simp only [List.length_append, List.length_cons, List.length_nil] at hfuel
    have hinner : ((',' :: (newline (level + 1)).toList).intercalate
        (parts.map String.toList)).length + 1 < fuel := by omega
    have hitems := readItems?_intercalate h hne (blank_newline (level + 1)) (blank_newline level)
      (endsNumber_newline level (']' :: suffix)) hinner
    refine ⟨suffix, ?_, rfl⟩
    simp only [List.cons_append, List.append_assoc, List.nil_append]
    exact readValue?_bracket hitems

theorem reads_obj {level : Nat} {parts : List String} {members : List (String × Json)}
    (h : List.Forall₂ ReadsMember (parts.map String.toList) members) :
    Reads (enclose level "\x7b" "\x7d" parts).toList (.obj members) := by
  by_cases hne : members = []
  · subst hne
    rw [List.forall₂_nil_right_iff, List.map_eq_nil_iff] at h
    rw [h, toList_enclose_nil (o := '\x7b') (c := '\x7d') rfl rfl]
    exact reads_of_exact fun _ _ => rfl
  · intro fuel suffix hfuel _
    obtain ⟨fuel, rfl⟩ : ∃ n, fuel = n + 1 := ⟨fuel - 1, by omega⟩
    have hparts : parts ≠ [] := by
      rintro rfl
      exact hne (List.forall₂_nil_left_iff.mp h)
    rw [toList_enclose (o := '\x7b') (c := '\x7d') rfl rfl hparts] at hfuel ⊢
    simp only [List.length_append, List.length_cons, List.length_nil] at hfuel
    have hinner : ((',' :: (newline (level + 1)).toList).intercalate
        (parts.map String.toList)).length + 1 < fuel := by omega
    have hmembers := readMembers?_intercalate h hne (blank_newline (level + 1)) (blank_newline level)
      (endsNumber_newline level ('\x7d' :: suffix)) hinner
    refine ⟨suffix, ?_, rfl⟩
    simp only [List.cons_append, List.append_assoc, List.nil_append]
    exact readValue?_brace hmembers

/-- **A tree is read back from its text**, at every level of nesting and whatever follows. -/
theorem Readable.reads {j : Json} (h : j.Readable) (level : Nat) :
    Reads (prettyAt level j).toList j := by
  induction h generalizing level with
  | null => exact reads_null
  | bool b => exact reads_bool b
  | integer hmin hmax => exact reads_integer hmin hmax
  | float h => exact reads_float h
  | str s => exact reads_textOf s
  | @arr items _ ih =>
    rw [prettyAt, prettyItems_eq_map]
    refine reads_arr ?_
    rw [List.map_map, List.forall₂_map_left_iff]
    exact List.forall₂_same.mpr fun j hj => ih j hj _
  | @obj members _ ih =>
    rw [prettyAt, prettyMembers_eq_map]
    refine reads_obj ?_
    rw [List.map_map, List.forall₂_map_left_iff]
    refine List.forall₂_same.mpr fun m hm => ⟨_, ?_, ih m hm (level + 1)⟩
    simp

/-- **Printing and reading gives the tree back.** -/
theorem parse?_pretty {j : Json} (h : j.Readable) : parse? j.pretty = some j :=
  (h.reads 0).parse?

end Retarget.Json
