import Retarget.CommandLine.Run
import Retarget.Proofs.Checked

/-!
# What a run does to the files

A path is walked through directories only, and no directory is ever made or removed, so what a path
leads to does not depend on the files (`locate_congr`).  A write gives one file a new text and keeps
all others (`write_cases`, `read_write`).  A run that fails keeps all files, and one that succeeds
changes at most the file that its output option names (`run_cases`).  So running a command again
changes nothing more, as long as the first run did not write over its input (`run_run`).
-/

namespace Retarget.CommandLine

variable {d d' files : Directory} {path other name text old : String} {place place' : Place}
  {s : Step} {p : Path} {args : List String} {c : Command}

namespace Directory

/-! ## Files by name -/

@[simp] theorem lookup_put (d : Directory) (name text other : String) :
    (d.put name text).lookup other = if other = name then some text else d.lookup other := by
  rw [put, List.lookup_cons]
  split
  · next h => rw [if_pos (beq_iff_eq.mp h)]
  · next h =>
    have hne : other ≠ name := by simpa using h
    rw [if_neg hne]
    induction d with
    | nil => rfl
    | cons file d ih =>
      obtain ⟨key, value⟩ := file
      rw [List.filter_cons, List.lookup_cons, ← ih]
      by_cases hkey : key = name
      · subst hkey
        simp [beq_eq_false_iff_ne.mpr hne]
      · simp [hkey, List.lookup_cons]

theorem put_put (d : Directory) (name text : String) :
    (d.put name text).put name text = d.put name text := by
  simp [put, List.filter_filter]

/-! ## Walks -/

theorem find_eq_error_iff : (∃ e, d.find place name = .error e) ↔
    maxStepBytes < name.utf8ByteSize := by
  unfold find
  split <;> simp [*]

theorem find_directory_iff : d.find place name = .ok (.directory place') ↔
    place = .root ∧ place' = .outside ∧ name.utf8ByteSize ≤ maxStepBytes ∧
      name ∈ rootDirectories := by
  unfold find
  split
  · next hlong => simp [Nat.not_le.mpr hlong]
  · next hshort =>
    rw [Nat.not_lt] at hshort
    cases place with
    | here => cases d.lookup name <;> simp
    | root => by_cases hname : name ∈ rootDirectories <;> simp [hname, hshort, eq_comm]
    | outside => simp

theorem find_file_iff : d.find place name = .ok (.file text) ↔
    place = .here ∧ name.utf8ByteSize ≤ maxStepBytes ∧ d.lookup name = some text := by
  unfold find
  split
  · next hlong => simp [Nat.not_le.mpr hlong]
  · next hshort =>
    rw [Nat.not_lt] at hshort
    cases place with
    | here => cases d.lookup name <;> simp [hshort]
    | root => simp only [Except.ok.injEq]; split <;> simp
    | outside => simp

theorem step_congr (h : d.step place s = .ok place') (d' : Directory) :
    d'.step place s = .ok place' := by
  cases s with
  | stay => exact h
  | up => exact h
  | enter name =>
    obtain ⟨found, hfind, h⟩ := bind_eq_ok.mp h
    cases found with
    | directory place =>
      exact bind_eq_ok.mpr ⟨_, find_directory_iff.mpr (find_directory_iff.mp hfind), h⟩
    | _ => cases h

theorem foldlM_step_congr {steps : List Step} (h : steps.foldlM d.step place = .ok place')
    (d' : Directory) : steps.foldlM d'.step place = .ok place' := by
  induction steps generalizing place with
  | nil => exact h
  | cons s steps ih =>
    rw [List.foldlM_cons] at h ⊢
    obtain ⟨next, hstep, hrest⟩ := bind_eq_ok.mp h
    exact bind_eq_ok.mpr ⟨next, step_congr hstep d', ih hrest⟩

/-- **What a path leads to does not depend on the files.** -/
theorem locate_congr {r : Place × Option String} (h : d.locate p = .ok r) (d' : Directory) :
    d'.locate p = .ok r := by
  rw [locate] at h ⊢
  obtain ⟨place, hwalk, h⟩ := bind_eq_ok.mp h
  exact bind_eq_ok.mpr ⟨place, foldlM_step_congr hwalk d', h⟩

/-! ## Reading and writing -/

/-- A path to a name at a place, without a slash behind it. -/
def Leads (d : Directory) (path : String) (place : Place) (name : String) : Prop :=
  ∃ p, Path.ofText path = .ok p ∧ d.locate p = .ok (place, some name) ∧ p.slash = false

theorem Leads.congr (h : d.Leads path place name) (d' : Directory) :
    d'.Leads path place name := by
  obtain ⟨p, hp, hlocate, hslash⟩ := h
  exact ⟨p, hp, locate_congr hlocate d', hslash⟩

theorem read_eq_ok : d.read path = .ok text ↔ ∃ name, d.Leads path .here name ∧
    name.utf8ByteSize ≤ maxStepBytes ∧ d.lookup name = some text := by
  constructor
  · intro h
    obtain ⟨p, hp, h⟩ := bind_eq_ok.mp h
    obtain ⟨⟨place, name?⟩, hlocate, h⟩ := bind_eq_ok.mp h
    cases name? with
    | none => cases h
    | some name =>
      obtain ⟨found, hfind, h⟩ := bind_eq_ok.mp h
      cases found with
      | file found =>
        dsimp only at h
        split at h
        · cases h
        · next hslash =>
          cases h
          obtain ⟨rfl, hshort, hlookup⟩ := find_file_iff.mp hfind
          exact ⟨name, ⟨p, hp, hlocate, by simpa using hslash⟩, hshort, hlookup⟩
      | _ => cases h
  · rintro ⟨name, ⟨p, hp, hlocate, hslash⟩, hshort, hlookup⟩
    refine bind_eq_ok.mpr ⟨p, hp, bind_eq_ok.mpr ⟨_, hlocate, ?_⟩⟩
    refine bind_eq_ok.mpr ⟨.file text, find_file_iff.mpr ⟨rfl, hshort, hlookup⟩, ?_⟩
    dsimp only
    rw [hslash]
    rfl

/-- **A write changes one file**, or none outside of the directory. -/
theorem write_eq_ok : d.write path text = .ok d' ↔ ∃ place name, d.Leads path place name ∧
    name.utf8ByteSize ≤ maxStepBytes ∧ (place = .root → name ∉ rootDirectories) ∧
    d' = if place = .here then d.put name text else d := by
  constructor
  · intro h
    obtain ⟨p, hp, h⟩ := bind_eq_ok.mp h
    obtain ⟨⟨place, name?⟩, hlocate, h⟩ := bind_eq_ok.mp h
    cases name? with
    | none => cases h
    | some name =>
      dsimp only at h
      split at h
      · cases h
      · next hslash =>
        obtain ⟨found, hfind, h⟩ := bind_eq_ok.mp h
        have hshort : name.utf8ByteSize ≤ maxStepBytes := Nat.not_lt.mp fun hlong => by
          obtain ⟨e, he⟩ := find_eq_error_iff.mpr hlong
          rw [he] at hfind
          cases hfind
        refine ⟨place, name, ⟨p, hp, hlocate, by simpa using hslash⟩, hshort, ?_, ?_⟩
        · rintro rfl hname
          cases hfind.symm.trans (find_directory_iff.mpr ⟨rfl, rfl, hshort, hname⟩)
          cases h
        · cases place <;> cases found <;> cases h <;> rfl
  · rintro ⟨place, name, ⟨p, hp, hlocate, hslash⟩, hshort, hroot, rfl⟩
    refine bind_eq_ok.mpr ⟨p, hp, bind_eq_ok.mpr ⟨_, hlocate, ?_⟩⟩
    dsimp only
    rw [if_neg (by simp [hslash])]
    cases hfind : d.find place name with
    | error e => exact absurd hshort (Nat.not_le.mpr (find_eq_error_iff.mp ⟨e, hfind⟩))
    | ok found =>
      refine bind_eq_ok.mpr ⟨found, rfl, ?_⟩
      cases found with
      | directory place' =>
        obtain ⟨hplace, -, -, hname⟩ := find_directory_iff.mp hfind
        exact absurd hname (hroot hplace)
      | _ => cases place <;> rfl

theorem write_write (h : d.write path text = .ok d') : d'.write path text = .ok d' := by
  obtain ⟨place, name, hleads, hshort, hroot, rfl⟩ := write_eq_ok.mp h
  refine write_eq_ok.mpr ⟨place, name, hleads.congr _, hshort, hroot, ?_⟩
  split
  · rw [put_put]
  · rfl

/-- **What is written is read back**, unless it went to another directory. -/
theorem read_write (h : d.write path text = .ok d') : d' = d ∨ d'.read path = .ok text := by
  obtain ⟨place, name, hleads, hshort, -, rfl⟩ := write_eq_ok.mp h
  split
  · next hplace =>
    subst hplace
    exact .inr (read_eq_ok.mpr ⟨name, hleads.congr _, hshort, by simp⟩)
  · exact .inl rfl

/-- A file keeps its text, unless the new one is written to it. -/
theorem read_write_of_read (h : d.write path text = .ok d') (hread : d.read other = .ok old) :
    d'.read other = .ok old ∨ d'.read other = .ok text := by
  obtain ⟨place, name, -, -, -, rfl⟩ := write_eq_ok.mp h
  obtain ⟨kept, hleads, hshort, hlookup⟩ := read_eq_ok.mp hread
  split
  · by_cases hname : kept = name
    · exact .inr (read_eq_ok.mpr ⟨kept, hleads.congr _, hshort, by simp [hname]⟩)
    · exact .inl (read_eq_ok.mpr ⟨kept, hleads.congr _, hshort, by simp [hname, hlookup]⟩)
  · exact .inl hread

end Directory

/-! ## Runs -/

theorem Problem.code_ne_zero (problem : Problem) : problem.code ≠ 0 := by
  unfold code
  split <;> decide

theorem run_of_write (h : parse args = .ok c) (hanswer : (c.compute files.read).2 = .ok text)
    (hpath : c.output? = some path) (hwrite : files.write path text = .ok d) :
    run args files = { code := 0, stderr := (c.compute files.read).1, files := d } := by
  rw [run, h]
  simp only [hanswer, hpath, hwrite]

/-- **A run succeeds or fails as a whole.**  If it succeeds, the assembly text is shown, or it is
written to the file of the output option; if it fails, nothing but the error is shown, and all files
are kept. -/
theorem run_cases (h : parse args = .ok c) (files : Directory) :
    (∃ text, (c.compute files.read).2 = .ok text ∧ (run args files).code = 0 ∧
      ((c.output? = none ∧ (run args files).stdout = text ∧ (run args files).files = files) ∨
        ∃ path, c.output? = some path ∧ (run args files).stdout = "" ∧
          files.write path text = .ok (run args files).files)) ∨
    (run args files).code ≠ 0 ∧ (run args files).stdout = "" ∧ (run args files).files = files := by
  cases hanswer : (c.compute files.read).2 with
  | error problem =>
    rw [run, h]
    simp only [hanswer]
    exact .inr ⟨problem.code_ne_zero, rfl, rfl⟩
  | ok text =>
    cases hpath : c.output? with
    | none =>
      have hrun : run args files =
          { code := 0, stdout := text, stderr := (c.compute files.read).1, files := files } := by
        rw [run, h]
        simp only [hanswer, hpath]
      rw [hrun]
      exact .inl ⟨text, rfl, rfl, .inl ⟨rfl, rfl, rfl⟩⟩
    | some path =>
      cases hwrite : files.write path text with
      | error problem =>
        rw [run, h]
        simp only [hanswer, hpath, hwrite]
        exact .inr ⟨(Problem.file problem).code_ne_zero, rfl, rfl⟩
      | ok d =>
        rw [run_of_write h hanswer hpath hwrite]
        exact .inl ⟨text, rfl, rfl, .inr ⟨path, rfl, rfl, hwrite⟩⟩

/-- What a command computes depends on its input file only. -/
theorem Command.compute_congr {read read' : String → Except FileProblem String}
    (h : ∀ input options output, c = .compile input options output → read' input = read input) :
    c.compute read' = c.compute read := by
  have hload : c.load read' = c.load read := by
    cases c with
    | compile input options output => rw [load, load, h input options output rfl]
    | test name arch output => rfl
  rw [compute, compute, hload]

/-- **A command that is run again changes nothing more** and shows the same, as long as the first
run did not write over its input. -/
theorem run_run (hinput : ∀ input options output,
      parse args = .ok (.compile input options output) →
        (run args files).files.read input = files.read input) :
    run args (run args files).files = run args files := by
  cases h : parse args with
  | error stop =>
    rw [run, run, h]
    cases stop <;> rfl
  | ok c =>
    rcases run_cases h files with ⟨text, hanswer, -, ⟨-, -, hkept⟩ | ⟨path, hpath, -, hwrite⟩⟩ |
      ⟨-, -, hkept⟩
    · rw [hkept]
    · have hsame : c.compute (run args files).files.read = c.compute files.read :=
        Command.compute_congr fun input options output hc => hinput input options output (hc ▸ h)
      rw [run_of_write h (hsame ▸ hanswer) hpath (Directory.write_write hwrite), hsame,
        ← run_of_write h hanswer hpath hwrite]
    · rw [hkept]

end Retarget.CommandLine
