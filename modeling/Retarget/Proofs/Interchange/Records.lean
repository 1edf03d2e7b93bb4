import Retarget.Ir.Decoding
import Retarget.Proofs.Interchange.Trees

/-!
# Records and types

A record that is written as an object with some of its fields, in their order, is read field by field
(`record?_obj`), at the depth inside the object, and an alternative is read at the depth inside its
content.  So a type is read back from its tree wherever the tree fits in depth (`Ty.ofJson?_toJson`).
The tree of a type consists of values that a text can stand for (`Ty.readable`).
-/

namespace Retarget

namespace Json

variable {α : Type} {depth : Nat} {name other : String} {content j : Json}
  {members : List (String × Json)} {named : Bool}

/-! ## Nesting -/

mutual

/-- How many objects and arrays lie inside each other. -/
def nesting : Json → Nat
  | arr items => nestingItems items + 1
  | obj members => nestingMembers members + 1
  | _ => 0

def nestingItems : List Json → Nat
  | [] => 0
  | j :: rest => max (nesting j) (nestingItems rest)

def nestingMembers : List (String × Json) → Nat
  | [] => 0
  | (_, j) :: rest => max (nesting j) (nestingMembers rest)

end

theorem nesting_le_of_mem {items : List Json} (h : j ∈ items) :
    j.nesting ≤ nestingItems items := by
  induction items with
  | nil => cases h
  | cons item items ih =>
    rw [nestingItems]
    rcases List.mem_cons.mp h with rfl | h
    · exact Nat.le_max_left _ _
    · exact (ih h).trans (Nat.le_max_right _ _)

/-! ## Fields -/

namespace Fields

variable {read : Json → Option α} {default : α}

@[simp] theorem required_cons_self :
    required ⟨(name, j) :: members, named⟩ name read = read j := by
  simp [required]

@[simp] theorem required_cons_of_ne (h : name ≠ other) :
    required ⟨(other, j) :: members, named⟩ name read = required ⟨members, named⟩ name read := by
  rw [required, required, List.lookup_cons, beq_false_of_ne h]

@[simp] theorem optional_cons_self :
    optional ⟨(name, j) :: members, named⟩ name read = nullable? read j := by
  simp [optional]

@[simp] theorem optional_cons_of_ne (h : name ≠ other) :
    optional ⟨(other, j) :: members, named⟩ name read = optional ⟨members, named⟩ name read := by
  rw [optional, optional, List.lookup_cons, beq_false_of_ne h]

@[simp] theorem withDefault_cons_self :
    withDefault ⟨(name, j) :: members, named⟩ name default read = read j := by
  simp [withDefault]

@[simp] theorem withDefault_cons_of_ne (h : name ≠ other) :
    withDefault ⟨(other, j) :: members, named⟩ name default read =
      withDefault ⟨members, named⟩ name default read := by
  rw [withDefault, withDefault, List.lookup_cons, beq_false_of_ne h]

@[simp] theorem withDefault_nil :
    withDefault ⟨[], named⟩ name default read = some default := rfl

end Fields

/-! ## Records -/

/-- An object with some of the fields of a record, in their order, has these fields. -/
theorem record?_obj {names : List String} {read : Nat → Fields → Option α}
    (hsub : (members.map (·.1)).Sublist names) (hnodup : names.Nodup) :
    record? names read (depth + 1) (.obj members) = read depth ⟨members, true⟩ := by
  have hknown : members.filter (fun m => names.contains m.1) = members := by
    refine List.filter_eq_self.mpr fun m hm => List.contains_iff_mem.mpr ?_
    exact hsub.subset (List.mem_map_of_mem hm)
  rw [record?, fields?, hknown, if_pos (hsub.nodup hnodup)]
  rfl

theorem list?_arr {read : Nat → Json → Option α} {write : α → Json} {as : List α}
    (h : ∀ a ∈ as, read depth (write a) = some a) :
    list? read (depth + 1) (.arr (as.map write)) = some as :=
  mapM_map_eq_some h

theorem alternative?_tagged (name : String) (content : Json) :
    alternative? (tagged name content) = some (name, some content) := rfl

/-- What is written is not null, or there is nothing to write. -/
theorem nullable?_nullable {read : Json → Option α} {write : α → Json} {a : Option α}
    (hread : ∀ b ∈ a, read (write b) = some b) (hnull : ∀ b ∈ a, write b ≠ .null) :
    nullable? read (Ir.nullable write a) = some a := by
  cases a with
  | none => rfl
  | some a =>
    rw [Ir.nullable, nullable?]
    · rw [hread a rfl]
      rfl
    · exact hnull a rfl

/-! ## Readable trees -/

@[simp] theorem readable_null : Readable .null := .null

@[simp] theorem readable_bool (b : Bool) : Readable (.bool b) := .bool b

@[simp] theorem readable_str (s : String) : Readable (.str s) := .str s

@[simp] theorem readable_arr {items : List Json} :
    (arr items).Readable ↔ ∀ j ∈ items, j.Readable :=
  ⟨fun h => by cases h with | arr h => exact h, .arr⟩

@[simp] theorem readable_obj : (obj members).Readable ↔ ∀ m ∈ members, m.2.Readable :=
  ⟨fun h => by cases h with | obj h => exact h, .obj⟩

@[simp] theorem readable_tagged : (tagged name content).Readable ↔ content.Readable := by
  simp [tagged]

theorem readable_natCast {bits n : Nat} (h : n < Word.modulus bits) (hbits : bits ≤ 64) :
    (integer n).Readable := by
  have hle : Word.modulus bits ≤ Word.modulus 64 := Nat.pow_le_pow_right (by omega) hbits
  exact .integer (by simp [Word.modulus]) (by omega)

@[simp] theorem readable_uint8 (n : UInt8) : (integer n.toNat).Readable :=
  readable_natCast n.toNat_lt (by omega)

@[simp] theorem readable_uint32 (n : UInt32) : (integer n.toNat).Readable :=
  readable_natCast n.toNat_lt (by omega)

@[simp] theorem readable_uint64 (n : UInt64) : (integer n.toNat).Readable :=
  readable_natCast n.toNat_lt (by omega)

@[simp] theorem readable_int64 (n : Int64) : (integer n.toInt).Readable := by
  have hmax : n.toInt < Word.modulus 63 := n.toInt_lt
  exact .integer n.le_toInt (hmax.trans (by decide))

theorem readable_nullable {write : α → Json} {a : Option α}
    (h : ∀ b ∈ a, (write b).Readable) : (Ir.nullable write a).Readable := by
  cases a with
  | none => exact .null
  | some a => exact h a rfl

end Json

namespace Ir

open Json

theorem content?_some {α : Type} (j : Json) (depth : Nat) (read : Nat → Json → Option α) :
    content? (some j) (depth + 1) read = read depth j := rfl

/-! ## Scalars -/

theorem unsigned?_natCast {bits n : Nat} (h : n < Word.modulus bits) :
    unsigned? bits (.integer n) = some n := by
  have hfits : (0 : Int) ≤ n ∧ (n : Int) < Word.modulus bits := ⟨by omega, by omega⟩
  rw [unsigned?, int?, Option.bind_eq_bind, Option.bind_some, if_pos hfits, Int.toNat_natCast]

@[simp] theorem uint8?_toNat (n : UInt8) : uint8? (.integer n.toNat) = some n := by
  rw [uint8?, unsigned?_natCast n.toNat_lt, Option.map_some, UInt8.ofNat_toNat]

@[simp] theorem uint32?_toNat (n : UInt32) : uint32? (.integer n.toNat) = some n := by
  rw [uint32?, unsigned?_natCast n.toNat_lt, Option.map_some, UInt32.ofNat_toNat]

@[simp] theorem uint64?_toNat (n : UInt64) : uint64? (.integer n.toNat) = some n := by
  rw [uint64?, unsigned?_natCast n.toNat_lt, Option.map_some, UInt64.ofNat_toNat]

@[simp] theorem int64?_toInt (n : Int64) : int64? (.integer n.toInt) = some n := by
  have hfits : -Word.modulus 63 ≤ n.toInt ∧ n.toInt < Word.modulus 63 := ⟨n.le_toInt, n.toInt_lt⟩
  rw [int64?, int?, Option.bind_eq_bind, Option.bind_some, if_pos hfits, Int64.ofInt_toInt]

@[simp] theorem bool?_bool (b : Bool) : bool? (.bool b) = some b := rfl

@[simp] theorem str?_str (s : String) : str? (.str s) = some s := rfl

@[simp] theorem nullable?_str (s : Option String) :
    nullable? str? (nullable .str s) = some s :=
  nullable?_nullable (fun _ _ => rfl) fun _ _ => by simp

/-! ## Types -/

section alternatives

variable {rounds depth : Nat}

theorem Ty.read?_int (bits : UInt8) (signed : Bool) :
    Ty.read? (rounds + 1) (depth + 2) (Ty.int bits signed).toJson = some (.int bits signed) := by
  rw [Ty.toJson, Ty.read?, alternative?_tagged, Option.bind_eq_bind, Option.bind_some]
  dsimp only
  split
  case h_2 =>
    rw [content?_some, record?_obj (by simp) (by simp)]
    simp
  all_goals contradiction

theorem Ty.read?_float (bits : UInt8) :
    Ty.read? (rounds + 1) (depth + 2) (Ty.float bits).toJson = some (.float bits) := by
  rw [Ty.toJson, Ty.read?, alternative?_tagged, Option.bind_eq_bind, Option.bind_some]
  dsimp only
  split
  case h_3 =>
    rw [content?_some, record?_obj (by simp) (by simp)]
    simp
  all_goals contradiction

theorem Ty.read?_ptr {pointee : Ty} (h : Ty.read? rounds depth pointee.toJson = some pointee) :
    Ty.read? (rounds + 1) (depth + 1) (Ty.ptr pointee).toJson = some (.ptr pointee) := by
  rw [Ty.toJson, Ty.read?, alternative?_tagged, Option.bind_eq_bind, Option.bind_some]
  dsimp only
  split
  case h_4 => rw [content?_some, h, Option.map_some]
  all_goals contradiction

theorem Ty.read?_array (size : UInt64) {element : Ty}
    (h : Ty.read? rounds depth element.toJson = some element) :
    Ty.read? (rounds + 1) (depth + 2) (Ty.array size element).toJson =
      some (.array size element) := by
  rw [Ty.toJson, Ty.read?, alternative?_tagged, Option.bind_eq_bind, Option.bind_some]
  dsimp only
  split
  case h_5 =>
    rw [content?_some, record?_obj (by simp) (by simp)]
    simp [h]
  all_goals contradiction

theorem Ty.read?_struct (name : Option String) {fields : List Ty}
    (h : (Ty.toJsonAll fields).mapM (Ty.read? rounds depth) = some fields) :
    Ty.read? (rounds + 1) (depth + 3) (Ty.struct name fields).toJson =
      some (.struct name fields) := by
  rw [Ty.toJson, Ty.read?, alternative?_tagged, Option.bind_eq_bind, Option.bind_some]
  dsimp only
  split
  case h_6 =>
    rw [content?_some, record?_obj (by simp) (by simp)]
    simp [list?, h]
  all_goals contradiction

end alternatives

mutual

/-- **A type is read back from its tree**, each round going through one alternative. -/
theorem Ty.read?_toJson : ∀ (ty : Ty) {rounds depth : Nat}, ty.toJson.nesting ≤ depth →
    depth ≤ rounds → Ty.read? rounds depth ty.toJson = some ty
  | .void, rounds, _, _, _ => by
    cases rounds <;> rfl
  | .int bits signed, rounds, depth, hdepth, hrounds => by
    simp only [Ty.toJson, tagged, nesting, nestingMembers] at hdepth
    obtain ⟨depth, rfl⟩ : ∃ n, depth = n + 2 := ⟨depth - 2, by omega⟩
    obtain ⟨rounds, rfl⟩ : ∃ n, rounds = n + 1 := ⟨rounds - 1, by omega⟩
    exact Ty.read?_int bits signed
  | .float bits, rounds, depth, hdepth, hrounds => by
    simp only [Ty.toJson, tagged, nesting, nestingMembers] at hdepth
    obtain ⟨depth, rfl⟩ : ∃ n, depth = n + 2 := ⟨depth - 2, by omega⟩
    obtain ⟨rounds, rfl⟩ : ∃ n, rounds = n + 1 := ⟨rounds - 1, by omega⟩
    exact Ty.read?_float bits
  | .ptr pointee, rounds, depth, hdepth, hrounds => by
    simp only [Ty.toJson, tagged, nesting, nestingMembers] at hdepth
    obtain ⟨depth, rfl⟩ : ∃ n, depth = n + 1 := ⟨depth - 1, by omega⟩
    obtain ⟨rounds, rfl⟩ : ∃ n, rounds = n + 1 := ⟨rounds - 1, by omega⟩
    exact Ty.read?_ptr (Ty.read?_toJson pointee (by omega) (by omega))
  | .array size element, rounds, depth, hdepth, hrounds => by
    simp only [Ty.toJson, tagged, nesting, nestingMembers] at hdepth
    obtain ⟨depth, rfl⟩ : ∃ n, depth = n + 2 := ⟨depth - 2, by omega⟩
    obtain ⟨rounds, rfl⟩ : ∃ n, rounds = n + 1 := ⟨rounds - 1, by omega⟩
    exact Ty.read?_array size (Ty.read?_toJson element (by omega) (by omega))
  | .struct name fields, rounds, depth, hdepth, hrounds => by
    simp only [Ty.toJson, tagged, nesting, nestingMembers] at hdepth
    obtain ⟨depth, rfl⟩ : ∃ n, depth = n + 3 := ⟨depth - 3, by omega⟩
    obtain ⟨rounds, rfl⟩ : ∃ n, rounds = n + 1 := ⟨rounds - 1, by omega⟩
    exact Ty.read?_struct name (Ty.read?_toJsonAll fields (by omega) (by omega))

theorem Ty.read?_toJsonAll : ∀ (tys : List Ty) {rounds depth : Nat},
    nestingItems (Ty.toJsonAll tys) ≤ depth → depth ≤ rounds →
    (Ty.toJsonAll tys).mapM (Ty.read? rounds depth) = some tys
  | [], _, _, _, _ => rfl
  | ty :: tys, rounds, depth, hdepth, hrounds => by
    simp only [Ty.toJsonAll, nestingItems] at hdepth
    have hty : Ty.read? rounds depth ty.toJson = some ty := Ty.read?_toJson ty (by omega) hrounds
    have htys : (Ty.toJsonAll tys).mapM (Ty.read? rounds depth) = some tys :=
      Ty.read?_toJsonAll tys (by omega) hrounds
    simp [Ty.toJsonAll, hty, htys]

end

theorem Ty.ofJson?_toJson {ty : Ty} {depth : Nat} (h : ty.toJson.nesting ≤ depth) :
    Ty.ofJson? depth ty.toJson = some ty :=
  ty.read?_toJson h (Nat.le_refl depth)

mutual

@[simp] theorem Ty.readable : ∀ ty : Ty, ty.toJson.Readable
  | .void => by simp [Ty.toJson]
  | .int _ _ => by simp [Ty.toJson]
  | .float _ => by simp [Ty.toJson]
  | .ptr pointee => by simp [Ty.toJson, pointee.readable]
  | .array _ element => by simp [Ty.toJson, element.readable]
  | .struct name fields => by
    have hname : (nullable .str name).Readable := readable_nullable fun _ _ => .str _
    have hfields : ∀ j ∈ Ty.toJsonAll fields, j.Readable := Ty.readable_of_mem fields
    simpa [Ty.toJson, hname] using hfields

theorem Ty.readable_of_mem : ∀ tys : List Ty, ∀ j ∈ Ty.toJsonAll tys, j.Readable
  | [], _, h => by cases h
  | ty :: tys, j, h => by
    rcases List.mem_cons.mp h with rfl | h
    · exact ty.readable
    · exact Ty.readable_of_mem tys j h

end

end Ir

end Retarget
