import Retarget.Proofs.Interchange.Instructions

/-!
# Modules

A module is read back from its text (`Module.parse?_print`), also from a text that leaves out the
flags of parameters that do not have it, or the list of globals where there is none: each part of a
module is read from every tree that it can be written as (`Module.ofJson?_of_writtenAs`), and these
trees consist of values that a text can stand for (`Module.WrittenAs.readable`).
-/

namespace Retarget.Ir

open Json

variable {depth : Nat} {j : Json}

/-! ## The forms of a module -/

/-- The trees that write a parameter: a flag that is not set may be missing. -/
def Parameter.WrittenAs (p : Parameter) (j : Json) : Prop :=
  j = p.toJson ∨ p.isReturnBuffer = false ∧ j = .obj [("name", .str p.name), ("ty", p.ty.toJson)]

/-- The trees that write a function. -/
def Function.WrittenAs (f : Function) (j : Json) : Prop :=
  ∃ parameters, List.Forall₂ Parameter.WrittenAs f.parameters parameters ∧
    j = .obj [("name", .str f.name), ("return_type", f.returnType.toJson),
      ("parameters", .arr parameters), ("blocks", .arr (f.blocks.map (·.toJson)))]

/-- The trees that write a module: an empty list of globals may be missing. -/
def Module.WrittenAs (m : Module) (j : Json) : Prop :=
  ∃ functions, List.Forall₂ Function.WrittenAs m.functions functions ∧
    (j = .obj [("name", .str m.name), ("functions", .arr functions),
        ("globals", .arr (m.globals.map (·.toJson)))] ∨
      m.globals = [] ∧ j = .obj [("name", .str m.name), ("functions", .arr functions)])

theorem Parameter.writtenAs_toJson (p : Parameter) : p.WrittenAs p.toJson := .inl rfl

theorem Function.writtenAs_toJson (f : Function) : f.WrittenAs f.toJson := by
  refine ⟨_, ?_, rfl⟩
  rw [List.forall₂_map_right_iff]
  exact List.forall₂_same.mpr fun p _ => p.writtenAs_toJson

theorem Module.writtenAs_toJson (m : Module) : m.WrittenAs m.toJson := by
  refine ⟨_, ?_, .inl rfl⟩
  rw [List.forall₂_map_right_iff]
  exact List.forall₂_same.mpr fun f _ => f.writtenAs_toJson

/-! ## Nesting

Leaving fields out never takes a tree deeper. -/

theorem nestingItems_le {α : Type} {R : α → Json → Prop} {write : α → Json} {as : List α}
    {items : List Json} (h : List.Forall₂ R as items)
    (hnesting : ∀ a j, R a j → j.nesting ≤ (write a).nesting) :
    nestingItems items ≤ nestingItems (as.map write) := by
  induction h with
  | nil => exact Nat.le_refl _
  | cons h _ ih => exact max_le_max (hnesting _ _ h) ih

theorem Parameter.WrittenAs.nesting_le {p : Parameter} (h : p.WrittenAs j) :
    j.nesting ≤ p.toJson.nesting := by
  obtain rfl | ⟨-, rfl⟩ := h
  · exact Nat.le_refl _
  · simp [Parameter.toJson, nesting, nestingMembers]

theorem Function.WrittenAs.nesting_le {f : Function} (h : f.WrittenAs j) :
    j.nesting ≤ f.toJson.nesting := by
  obtain ⟨parameters, hparameters, rfl⟩ := h
  have hle : nestingItems parameters ≤ nestingItems (f.parameters.map (·.toJson)) :=
    nestingItems_le hparameters fun _ _ => Parameter.WrittenAs.nesting_le
  simp only [Function.toJson, nesting, nestingMembers]
  omega

theorem Module.WrittenAs.nesting_le {m : Module} (h : m.WrittenAs j) :
    j.nesting ≤ m.toJson.nesting := by
  obtain ⟨functions, hfunctions, hj⟩ := h
  have hle : nestingItems functions ≤ nestingItems (m.functions.map (·.toJson)) :=
    nestingItems_le hfunctions fun _ _ => Function.WrittenAs.nesting_le
  obtain rfl | ⟨-, rfl⟩ := hj <;> simp only [Module.toJson, nesting, nestingMembers] <;> omega

/-! ## Reading the forms -/

theorem nestingMembers_le_of_obj {members : List (String × Json)}
    (h : (Json.obj members).nesting ≤ depth) :
    ∃ inner, depth = inner + 1 ∧ nestingMembers members ≤ inner := by
  rw [nesting] at h
  exact ⟨depth - 1, by omega, by omega⟩

section lists

variable {α : Type} {read : Nat → Json → Option α} {as : List α} {items : List Json}

theorem list?_of_forall₂ {R : α → Json → Prop} (h : List.Forall₂ R as items)
    (hread : ∀ a j depth, R a j → j.nesting ≤ depth → read depth j = some a)
    (hdepth : (Json.arr items).nesting ≤ depth) : list? read depth (.arr items) = some as := by
  rw [nesting] at hdepth
  obtain ⟨depth, rfl⟩ : ∃ n, depth = n + 1 := ⟨depth - 1, by omega⟩
  rw [list?]
  induction h with
  | nil => rfl
  | @cons a j as items h _ ih =>
    rw [nestingItems] at hdepth
    rw [List.mapM_cons, hread a j depth h (by omega), Option.bind_eq_bind, Option.bind_some,
      ih (by omega)]
    rfl

theorem list?_map {write : α → Json}
    (hread : ∀ a depth, (write a).nesting ≤ depth → read depth (write a) = some a)
    (hdepth : (Json.arr (as.map write)).nesting ≤ depth) :
    list? read depth (.arr (as.map write)) = some as := by
  refine list?_of_forall₂ (R := fun a j => j = write a) ?_ ?_ hdepth
  · rw [List.forall₂_map_right_iff]
    exact List.forall₂_same.mpr fun _ _ => rfl
  · rintro a j depth rfl h
    exact hread a depth h

end lists

theorem Block.ofJson?_toJson (b : Block) (depth : Nat) (h : b.toJson.nesting ≤ depth) :
    Block.ofJson? depth b.toJson = some b := by
  obtain ⟨depth, rfl, hinner⟩ := nestingMembers_le_of_obj h
  simp only [nestingMembers, max_le_iff] at hinner
  have hinstructions := list?_map (fun _ _ => Instruction.ofJson?_toJson) hinner.2.1
  rw [Block.toJson, Block.ofJson?, record?_obj (by simp) (by simp)]
  simp [hinstructions]

theorem Parameter.ofJson?_of_writtenAs (p : Parameter) (j : Json) (depth : Nat)
    (hj : p.WrittenAs j) (h : j.nesting ≤ depth) : Parameter.ofJson? depth j = some p := by
  obtain rfl | ⟨hflag, rfl⟩ := hj
  · obtain ⟨depth, rfl, hinner⟩ := nestingMembers_le_of_obj h
    simp only [nestingMembers, max_le_iff] at hinner
    rw [Parameter.toJson, Parameter.ofJson?, record?_obj (by simp) (by simp)]
    simp [Ty.ofJson?_toJson, hinner]
  · obtain ⟨depth, rfl, hinner⟩ := nestingMembers_le_of_obj h
    simp only [nestingMembers, max_le_iff] at hinner
    rw [Parameter.ofJson?, record?_obj (by simp) (by simp)]
    simp [Ty.ofJson?_toJson, hinner, ← hflag]

theorem Function.ofJson?_of_writtenAs (f : Function) (j : Json) (depth : Nat)
    (hj : f.WrittenAs j) (h : j.nesting ≤ depth) : Function.ofJson? depth j = some f := by
  obtain ⟨parameters, hparameters, rfl⟩ := hj
  obtain ⟨depth, rfl, hinner⟩ := nestingMembers_le_of_obj h
  simp only [nestingMembers, max_le_iff] at hinner
  have hparameters := list?_of_forall₂ hparameters Parameter.ofJson?_of_writtenAs hinner.2.2.1
  have hblocks := list?_map Block.ofJson?_toJson hinner.2.2.2.1
  rw [Function.ofJson?, record?_obj (by simp) (by simp)]
  simp [Ty.ofJson?_toJson, hinner, hparameters, hblocks]

theorem Initializer.ofJson?_toJson {i : Initializer} (h : i.toJson.nesting ≤ depth) :
    Initializer.ofJson? depth i.toJson = some i := by
  cases i with
  | int value =>
    simp only [Initializer.toJson, tagged, nesting, nestingMembers] at h
    obtain ⟨depth, rfl⟩ : ∃ n, depth = n + 1 := ⟨depth - 1, by omega⟩
    rw [Initializer.toJson, Initializer.ofJson?, alternative?_tagged, Option.bind_eq_bind,
      Option.bind_some]
    change (content? (some _) (depth + 1) (fun _ => int64?)).map Initializer.int = _
    rw [content?_some, int64?_toInt, Option.map_some]
  | list values =>
    simp only [Initializer.toJson, tagged, nesting, nestingMembers] at h
    obtain ⟨depth, rfl⟩ : ∃ n, depth = n + 2 := ⟨depth - 2, by omega⟩
    rw [Initializer.toJson, Initializer.ofJson?, alternative?_tagged, Option.bind_eq_bind,
      Option.bind_some]
    change (content? (some _) (depth + 2) (list? fun _ => int64?)).map Initializer.list = _
    rw [content?_some, list?_arr fun value _ => int64?_toInt value, Option.map_some]
  | str value =>
    simp only [Initializer.toJson, tagged, nesting, nestingMembers] at h
    obtain ⟨depth, rfl⟩ : ∃ n, depth = n + 1 := ⟨depth - 1, by omega⟩
    rw [Initializer.toJson, Initializer.ofJson?, alternative?_tagged, Option.bind_eq_bind,
      Option.bind_some]
    change (content? (some _) (depth + 1) (fun _ => str?)).map Initializer.str = _
    rw [content?_some, str?_str, Option.map_some]

theorem Initializer.toJson_ne_null (i : Initializer) : i.toJson ≠ .null := by
  cases i <;> simp [Initializer.toJson, tagged]

theorem Global.ofJson?_toJson (g : Global) (depth : Nat) (h : g.toJson.nesting ≤ depth) :
    Global.ofJson? depth g.toJson = some g := by
  obtain ⟨depth, rfl, hinner⟩ := nestingMembers_le_of_obj h
  simp only [nestingMembers, max_le_iff] at hinner
  have hinitializer : nullable? (Initializer.ofJson? depth)
      (nullable Initializer.toJson g.initializer) = some g.initializer := by
    refine nullable?_nullable (fun i hi => Initializer.ofJson?_toJson ?_)
      fun i _ => i.toJson_ne_null
    have hnesting := hinner.2.2.1
    rw [Option.mem_def.mp hi] at hnesting
    exact hnesting
  rw [Global.toJson, Global.ofJson?, record?_obj (by simp) (by simp)]
  simp [Ty.ofJson?_toJson, hinner, hinitializer]

/-- **A module is read from every tree that it can be written as.** -/
theorem Module.ofJson?_of_writtenAs {m : Module} (hj : m.WrittenAs j) (h : j.nesting ≤ depth) :
    Module.ofJson? depth j = some m := by
  obtain ⟨functions, hfunctions, rfl | ⟨hglobals, rfl⟩⟩ := hj
  · obtain ⟨depth, rfl, hinner⟩ := nestingMembers_le_of_obj h
    simp only [nestingMembers, max_le_iff] at hinner
    have hfunctions := list?_of_forall₂ hfunctions Function.ofJson?_of_writtenAs hinner.2.1
    have hglobals := list?_map Global.ofJson?_toJson hinner.2.2.1
    rw [Module.ofJson?, record?_obj (by simp) (by simp)]
    simp [hfunctions, hglobals]
  · obtain ⟨depth, rfl, hinner⟩ := nestingMembers_le_of_obj h
    simp only [nestingMembers, max_le_iff] at hinner
    have hfunctions := list?_of_forall₂ hfunctions Function.ofJson?_of_writtenAs hinner.2.1
    rw [Module.ofJson?, record?_obj (by simp) (by simp)]
    simp [hfunctions, ← hglobals]

/-! ## Readable forms -/

def Function.values (f : Function) : List Value :=
  f.blocks.flatMap fun b => b.instructions.flatMap (·.values)

/-- The float constants of a module. -/
def Module.floats (m : Module) : List Float :=
  m.functions.flatMap fun f => f.values.flatMap (·.floats)

theorem readable_of_forall₂ {α : Type} {R : α → Json → Prop} {as : List α} {items : List Json}
    (h : List.Forall₂ R as items) (hreadable : ∀ a ∈ as, ∀ j, R a j → j.Readable) :
    ∀ j ∈ items, j.Readable := by
  induction h with
  | nil => simp
  | cons h _ ih =>
    rw [List.forall_mem_cons] at hreadable ⊢
    exact ⟨hreadable.1 _ h, ih hreadable.2⟩

theorem Parameter.WrittenAs.readable {p : Parameter} (h : p.WrittenAs j) : j.Readable := by
  obtain rfl | ⟨-, rfl⟩ := h <;> simp [Parameter.toJson]

theorem Block.readable {b : Block}
    (h : ∀ v ∈ b.instructions.flatMap (·.values), v.toJson.Readable) : b.toJson.Readable := by
  have hinstructions : ∀ i ∈ b.instructions, i.toJson.Readable := fun i hi =>
    Instruction.readable fun v hv => h v (List.mem_flatMap.mpr ⟨i, hi, hv⟩)
  simpa [Block.toJson] using hinstructions

theorem Function.WrittenAs.readable {f : Function} (hj : f.WrittenAs j)
    (h : ∀ v ∈ f.values, v.toJson.Readable) : j.Readable := by
  obtain ⟨parameters, hparameters, rfl⟩ := hj
  have hparameters : ∀ p ∈ parameters, p.Readable :=
    readable_of_forall₂ hparameters fun _ _ _ => Parameter.WrittenAs.readable
  have hblocks : ∀ b ∈ f.blocks, b.toJson.Readable := fun b hb =>
    Block.readable fun v hv => h v (List.mem_flatMap.mpr ⟨b, hb, hv⟩)
  simpa using ⟨hparameters, hblocks⟩

theorem Global.readable (g : Global) : g.toJson.Readable := by
  have hinitializer : (nullable Initializer.toJson g.initializer).Readable :=
    readable_nullable fun i _ => by cases i <;> simp [Initializer.toJson]
  simp [Global.toJson, hinitializer]

/-- In a tree that a module is written as, a text cannot stand for a float constant only. -/
theorem Module.WrittenAs.readable {m : Module} (hj : m.WrittenAs j)
    (h : ∀ x ∈ m.floats, ReadsBack x) : j.Readable := by
  obtain ⟨functions, hfunctions, hj⟩ := hj
  have hfunctions : ∀ f ∈ functions, f.Readable :=
    readable_of_forall₂ hfunctions fun f hf _ hj =>
      hj.readable fun v hv => Value.readable fun x hx =>
        h x (List.mem_flatMap.mpr ⟨f, hf, List.mem_flatMap.mpr ⟨v, hv, hx⟩⟩)
  have hglobals : ∀ g ∈ m.globals, g.toJson.Readable := fun g _ => g.readable
  obtain rfl | ⟨-, rfl⟩ := hj
  · simpa using ⟨hfunctions, hglobals⟩
  · simpa using hfunctions

/-! ## Texts -/

/-- **Printing and reading gives the module back**, and so does reading a text without the flags
that are not set, or without the list of globals where there are none: as long as the float
constants are finite, and finite numbers read back. -/
theorem Module.parse?_print {m : Module} (hfinite : ∀ x ∈ m.floats, x.isFinite)
    (hreadsBack : ∀ x ∈ m.floats, x.isFinite → ReadsBack x)
    (hdepth : m.toJson.nesting ≤ maxDepth) :
    Module.parse? m.print = some m ∧ ∀ j, m.WrittenAs j → Module.parse? j.pretty = some m := by
  have hread : ∀ j, m.WrittenAs j → Module.parse? j.pretty = some m := by
    intro j hj
    have htree : Json.parse? j.pretty = some j :=
      parse?_pretty (hj.readable fun x hx => hreadsBack x hx (hfinite x hx))
    rw [Module.parse?, htree, Option.bind_eq_bind, Option.bind_some]
    exact Module.ofJson?_of_writtenAs hj (hj.nesting_le.trans hdepth)
  exact ⟨hread _ m.writtenAs_toJson, hread⟩

/-- A function that reads the first field of a pair. -/
def Module.firstOfPair : Module :=
  let pair : Ty := .ptr (.struct (some "pair") [.i32, .i64])
  { name := "pairs"
    functions := [{
      name := "first"
      returnType := .i32
      parameters := [⟨"p", pair, false⟩]
      blocks := [⟨"entry", [.load 0 (.param "p" pair) .i32, .ret (some (.temp 0 .i32))]⟩] }] }

theorem Module.parse?_print_firstOfPair :
    (∀ x ∈ firstOfPair.floats, x.isFinite) ∧
      (∀ x ∈ firstOfPair.floats, x.isFinite → ReadsBack x) ∧
      firstOfPair.toJson.nesting ≤ maxDepth ∧
      Module.parse? firstOfPair.print = some firstOfPair ∧
      ∀ j, firstOfPair.WrittenAs j → Module.parse? j.pretty = some firstOfPair := by
  have hfloats : firstOfPair.floats = [] := rfl
  have hfinite : ∀ x ∈ firstOfPair.floats, x.isFinite := by simp [hfloats]
  have hreadsBack : ∀ x ∈ firstOfPair.floats, x.isFinite → ReadsBack x := by simp [hfloats]
  have hdepth : firstOfPair.toJson.nesting ≤ maxDepth := by decide
  exact ⟨hfinite, hreadsBack, hdepth, Module.parse?_print hfinite hreadsBack hdepth⟩

end Retarget.Ir
