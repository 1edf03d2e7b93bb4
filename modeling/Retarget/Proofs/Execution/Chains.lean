import Mathlib.Data.Finset.Card
import Mathlib.Data.Nat.Find
import Retarget.Simplification

/-!
# Chains of renamings

A renamed register is looked for at its source, which may be renamed itself.  Such a chain comes to
an end (`Renames.Ends`) or goes round in a circle.  A chain that ends has no more steps than there
are renamings, so `resolve` gets to its end (`Ends.resolve`).  One more renaming closes a circle if
and only if its source leads to the renamed register (`acyclic_insert_iff`).
-/

namespace Retarget.Machine.Renames

variable {rs : Renames} {source next : Source} {dest : RegId} {m n : Nat}

/-! ## Steps -/

theorem follow_succ (rs : Renames) (n : Nat) (source : Source) :
    rs.follow (n + 1) source = ((rs.next? source).map (rs.follow n)).getD source := by
  cases source with
  | parameter r => rfl
  | virtualReg r =>
    rw [follow, next?]
    cases rs.entries.lookup r <;> rfl

theorem follow_of_next?_eq_none (h : rs.next? source = none) (n : Nat) :
    rs.follow n source = source := by
  cases n with
  | zero => cases source <;> rfl
  | succ n => rw [follow_succ, h]; rfl

theorem follow_of_next? (h : rs.next? source = some next) (n : Nat) :
    rs.follow (n + 1) source = rs.follow n next := by
  rw [follow_succ, h]
  rfl

theorem follow_add (rs : Renames) (m n : Nat) (source : Source) :
    rs.follow (m + n) source = rs.follow n (rs.follow m source) := by
  induction m generalizing source with
  | zero =>
    rw [Nat.zero_add]
    cases source <;> rfl
  | succ m ih =>
    cases h : rs.next? source with
    | none => rw [follow_of_next?_eq_none h, follow_of_next?_eq_none h, follow_of_next?_eq_none h]
    | some next => rw [Nat.succ_add, follow_of_next? h, follow_of_next? h, ih]

/-! ## Ends -/

/-- After some steps nothing is renamed any more. -/
def Ends (rs : Renames) (source : Source) : Prop := ∃ n, rs.next? (rs.follow n source) = none

/-- Every chain comes to an end. -/
def Acyclic (rs : Renames) : Prop := ∀ source, rs.Ends source

theorem ends_of_next?_eq_none (h : rs.next? source = none) : rs.Ends source :=
  ⟨0, by rwa [follow_of_next?_eq_none h]⟩

theorem ends_iff_of_next? (h : rs.next? source = some next) : rs.Ends source ↔ rs.Ends next := by
  constructor
  · rintro ⟨n, hn⟩
    refine ⟨n, ?_⟩
    -- one step more changes nothing at the end of the chain
    have hend := follow_of_next?_eq_none hn 1
    rw [← follow_add, follow_of_next? h] at hend
    rwa [hend]
  · rintro ⟨n, hn⟩
    exact ⟨n + 1, by rwa [follow_of_next? h]⟩

theorem exists_renamed (h : rs.next? source = some next) :
    ∃ r ∈ rs.entries.map (·.1), source = .virtualReg r := by
  cases source with
  | parameter r => cases h
  | virtualReg r =>
    obtain ⟨l₁, l₂, hentries, -⟩ := List.lookup_eq_some_iff.mp h
    exact ⟨r, by simp [hentries], rfl⟩

/-- **A chain that ends is no longer than there are renamings**, because it passes no register
twice. -/
theorem Ends.resolve (h : rs.Ends source) : rs.next? (rs.resolve source) = none := by
  classical
  obtain ⟨n, hn, hmin⟩ : ∃ n, rs.next? (rs.follow n source) = none ∧
      ∀ k < n, rs.next? (rs.follow k source) ≠ none :=
    ⟨Nat.find h, Nat.find_spec h, fun k => Nat.find_min h⟩
  suffices hle : n ≤ rs.entries.length by
    obtain ⟨k, hk⟩ := Nat.exists_eq_add_of_le hle
    rw [Renames.resolve, hk, follow_add, follow_of_next?_eq_none hn]
    exact hn
  by_contra hlt
  have hkeys : ((rs.entries.map (·.1)).toFinset.image Source.virtualReg).card <
      (Finset.range n).card := by
    have hcard := (Finset.card_image_le (s := (rs.entries.map (·.1)).toFinset)
      (f := Source.virtualReg)).trans (List.toFinset_card_le _)
    rw [List.length_map] at hcard
    rw [Finset.card_range]
    omega
  obtain ⟨i, hi, j, hj, hne, hsame⟩ := Finset.exists_ne_map_eq_of_card_lt_of_maps_to hkeys
    (f := fun k => rs.follow k source) fun k hk => by
      obtain ⟨next, hnext⟩ := Option.ne_none_iff_exists'.mp (hmin k (Finset.mem_range.mp hk))
      obtain ⟨r, hr, hsource⟩ := exists_renamed hnext
      exact Finset.mem_image.mpr ⟨r, List.mem_toFinset.mpr hr, hsource.symm⟩
  -- the end of the chain would come sooner by what lies between the two
  have hsooner : ∀ i j, i < j → j < n → rs.follow i source = rs.follow j source → False := by
    intro i j hij hjn hsame
    refine hmin (i + (n - j)) (by omega) ?_
    rw [follow_add, hsame, ← follow_add, Nat.add_sub_cancel' hjn.le]
    exact hn
  rw [Finset.mem_range] at hi hj
  rcases Nat.lt_or_gt_of_ne hne with hlt | hlt
  · exact hsooner i j hlt hj hsame
  · exact hsooner j i hlt hi hsame.symm

theorem isAcyclic_iff : rs.isAcyclic ↔ rs.Acyclic := by
  rw [isAcyclic, List.all_eq_true]
  constructor
  · intro h source
    cases hnext : rs.next? source with
    | none => exact ends_of_next?_eq_none hnext
    | some next =>
      obtain ⟨r, hr, rfl⟩ := exists_renamed hnext
      obtain ⟨entry, hentry, rfl⟩ := List.mem_map.mp hr
      exact ⟨_, Option.isNone_iff_eq_none.mp (h entry hentry)⟩
  · intro h entry _
    exact Option.isNone_iff_eq_none.mpr (h (.virtualReg entry.1)).resolve

/-! ## One more renaming -/

section Insert

variable (hdest : rs.entries.lookup dest = none)

theorem next?_insert_self (rs : Renames) (dest : RegId) (source : Source) :
    (rs.insert dest source).next? (.virtualReg dest) = some source :=
  List.lookup_cons_self

theorem next?_insert_of_ne {s : Source} (h : s ≠ .virtualReg dest) :
    (rs.insert dest source).next? s = rs.next? s := by
  cases s with
  | parameter r => rfl
  | virtualReg r =>
    have hr : r ≠ dest := fun heq => h (heq ▸ rfl)
    rw [next?, next?, insert, List.lookup_cons, beq_false_of_ne hr]

include hdest

/-- Where a chain gets to, it gets to with the new renaming, or it ends there. -/
theorem ends_insert_of_follow {s : Source} (h : (rs.insert dest source).Ends (rs.follow n s)) :
    (rs.insert dest source).Ends s := by
  induction n generalizing s with
  | zero => cases s <;> exact h
  | succ n ih =>
    cases hnext : rs.next? s with
    | none => rwa [follow_of_next?_eq_none hnext] at h
    | some next =>
      have hs : s ≠ .virtualReg dest := by
        rintro rfl
        cases hdest.symm.trans hnext
      rw [follow_of_next? hnext] at h
      exact (ends_iff_of_next? ((next?_insert_of_ne hs).trans hnext)).mpr (ih h)

theorem ends_of_ends_insert {s : Source} (h : (rs.insert dest source).Ends s) : rs.Ends s := by
  obtain ⟨n, hn⟩ := h
  induction n generalizing s with
  | zero =>
    cases hnext : rs.next? s with
    | none => exact ends_of_next?_eq_none hnext
    | some next =>
      have hs : s ≠ .virtualReg dest := by
        rintro rfl
        cases hdest.symm.trans hnext
      have hsome : (rs.insert dest source).next? s = some next :=
        (next?_insert_of_ne hs).trans hnext
      have hzero : (rs.insert dest source).follow 0 s = s := by cases s <;> rfl
      rw [hzero, hsome] at hn
      cases hn
  | succ n ih =>
    cases hnext : rs.next? s with
    | none => exact ends_of_next?_eq_none hnext
    | some next =>
      have hs : s ≠ .virtualReg dest := by
        rintro rfl
        cases hdest.symm.trans hnext
      rw [follow_of_next? ((next?_insert_of_ne hs).trans hnext)] at hn
      exact (ends_iff_of_next? hnext).mpr (ih hn)

/-- What leads to the renamed register before leads back to it behind the renaming. -/
theorem not_ends_insert (h : rs.follow n source = .virtualReg dest) :
    ¬ (rs.insert dest source).Ends (.virtualReg dest) := by
  have hround : ∃ k, (rs.insert dest source).follow (k + 1) (.virtualReg dest) =
      .virtualReg dest := by
    suffices hreach : ∃ k, (rs.insert dest source).follow k source = .virtualReg dest by
      obtain ⟨k, hk⟩ := hreach
      exact ⟨k, by rwa [follow_of_next? (next?_insert_self rs dest source)]⟩
    generalize hnew : rs.insert dest source = rs'
    have hother : ∀ s : Source, s ≠ .virtualReg dest → rs'.next? s = rs.next? s :=
      fun s hs => hnew ▸ next?_insert_of_ne hs
    clear hnew
    induction n generalizing source with
    | zero => exact ⟨0, by cases source <;> exact h⟩
    | succ n ih =>
      cases hnext : rs.next? source with
      | none =>
        rw [follow_of_next?_eq_none hnext] at h
        exact ⟨0, by cases source <;> exact h⟩
      | some next =>
        have hs : source ≠ .virtualReg dest := by
          rintro rfl
          cases hdest.symm.trans hnext
        rw [follow_of_next? hnext] at h
        obtain ⟨k, hk⟩ := ih h
        exact ⟨k + 1, by rwa [follow_of_next? ((hother _ hs).trans hnext)]⟩
  obtain ⟨k, hk⟩ := hround
  have hrounds : ∀ j, (rs.insert dest source).follow (j * (k + 1)) (.virtualReg dest) =
      .virtualReg dest := by
    intro j
    induction j with
    | zero => rw [Nat.zero_mul]; rfl
    | succ j ih => rw [Nat.succ_mul, follow_add, ih, hk]
  rintro ⟨n, hn⟩
  have hpast := follow_of_next?_eq_none hn (n * k)
  rw [← follow_add, Nat.add_comm n, ← Nat.mul_succ, hrounds] at hpast
  rw [← hpast, next?_insert_self] at hn
  cases hn

/-- **A renaming closes a circle exactly when its source leads to the renamed register.** -/
theorem acyclic_insert_iff (h : rs.Acyclic) :
    (rs.insert dest source).Acyclic ↔ rs.resolve source ≠ .virtualReg dest := by
  constructor
  · exact fun hacyclic hcircle => not_ends_insert hdest hcircle (hacyclic _)
  · intro hne s
    -- every chain gets to where it ended before; if that is the renamed register, it goes on
    -- to where the source leads
    have hend : ∀ s, rs.resolve s ≠ .virtualReg dest → (rs.insert dest source).Ends s :=
      fun s hs => ends_insert_of_follow hdest
        (ends_of_next?_eq_none ((next?_insert_of_ne hs).trans (h s).resolve))
    by_cases hs : rs.resolve s = .virtualReg dest
    · refine ends_insert_of_follow hdest (n := rs.entries.length) ?_
      rw [Renames.resolve] at hs
      rw [hs]
      exact (ends_iff_of_next? (next?_insert_self rs dest source)).mpr (hend source hne)
    · exact hend s hs

end Insert

end Retarget.Machine.Renames
