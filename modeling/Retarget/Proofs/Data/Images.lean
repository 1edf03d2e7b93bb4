import Mathlib
import Retarget.Lowering.Module
import Retarget.Proofs.Data.Quoting
import Retarget.Proofs.Data.Scalars

/-!
# The bytes of static data

An assembler turns the directives of a global into bytes (`Machine.Data.image?`).  Each step of
lowering a global adds known bytes (`Machine.Data.Grows`), and together they are the bytes that the
initializer asks for (`image_lowerGlobal`).
-/

namespace Retarget

namespace Machine

/-! ## How an assembler reads directives -/

/-- The lowest `width` bytes of a number in two's complement, the least significant first. -/
def littleEndian (width : Nat) (value : Int) : List UInt8 :=
  (List.range width).map fun k => UInt8.ofInt (value / 256 ^ k)

/-- The bytes that a directive stands for. -/
def directiveBytes? (directive argument : String) : Option (List UInt8) :=
  match directive with
  | ".byte" => argument.toInt?.map (littleEndian 1)
  | ".short" => argument.toInt?.map (littleEndian 2)
  | ".long" => argument.toInt?.map (littleEndian 4)
  | ".quad" => argument.toInt?.map (littleEndian 8)
  | ".zero" => argument.toNat?.map fun n => List.replicate n 0
  | ".asciz" => (unquote? argument).map (· ++ [0])
  | _ => none

def Data.image? (d : Data) : Option (List UInt8) :=
  (d.entries.mapM fun e => directiveBytes? e.directive e.argument).map List.flatten

@[simp]
theorem length_littleEndian (width : Nat) (value : Int) :
    (littleEndian width value).length = width := by
  simp [littleEndian]

@[simp]
theorem littleEndian_zero (width : Nat) : littleEndian width 0 = List.replicate width 0 := by
  simp [littleEndian, List.map_const', show UInt8.ofInt 0 = 0 from rfl]

/-! ## The bytes of an entry -/

/-- The bytes that an entry is written for. -/
def DataEntry.content : DataEntry → List UInt8
  | scalar w v => littleEndian w.bytes v
  | zeros n => List.replicate n 0
  | text s => s.toUTF8.toList ++ [0]

theorem directiveBytes?_entry (e : DataEntry) :
    directiveBytes? e.directive e.argument = some e.content := by
  cases e with
  | scalar w v =>
    have hvalue : (toString v).toInt? = some v := Int.toInt?_repr v
    cases w <;> simp only [DataEntry.directive, ScalarWidth.directive, DataEntry.argument,
      directiveBytes?, hvalue] <;> rfl
  | zeros n =>
    have hcount : (toString n).toNat? = some n := Nat.toNat?_repr n
    simp only [DataEntry.directive, DataEntry.argument, directiveBytes?, hcount]
    rfl
  | text s =>
    simp only [DataEntry.directive, DataEntry.argument, directiveBytes?, unquote?_quote]
    rfl

theorem length_utf8 (s : String) : s.toUTF8.toList.length = s.utf8ByteSize := by
  rw [toList_byteArray, String.toUTF8_eq_toByteArray]
  exact String.size_toByteArray

theorem length_content (e : DataEntry) : e.content.length = e.bytes := by
  cases e with
  | scalar w v => exact length_littleEndian _ _
  | zeros n => exact List.length_replicate
  | text s => rw [DataEntry.content, List.length_append, length_utf8]; rfl

namespace Data

def content (d : Data) : List UInt8 := d.entries.flatMap DataEntry.content

theorem image?_eq (d : Data) : d.image? = some d.content := by
  have hentries (es : List DataEntry) :
      es.mapM (fun e => directiveBytes? e.directive e.argument) =
        some (es.map DataEntry.content) := by
    induction es with
    | nil => rfl
    | cons e es ih =>
      rw [List.mapM_cons, ih, directiveBytes?_entry]
      rfl
  rw [image?, hentries, Option.map_some, content, List.flatMap_def]

/-- `bytes` were added behind what was there, and are counted. -/
structure Grows (d d' : Data) (bytes : List UInt8) : Prop where
  content : d'.content = d.content ++ bytes
  size : d'.size = d.size + bytes.length

variable {d d' d'' : Data} {bytes bytes' : List UInt8}

theorem Grows.refl (d : Data) : d.Grows d [] where
  content := (List.append_nil _).symm
  size := rfl

theorem Grows.trans (h : d.Grows d' bytes) (h' : d'.Grows d'' bytes') :
    d.Grows d'' (bytes ++ bytes') where
  content := by rw [h'.content, h.content, List.append_assoc]
  size := by rw [h'.size, h.size, List.length_append, Nat.add_assoc]

theorem grows_push {e : DataEntry} (h : d.push e = .ok d') : d.Grows d' e.content := by
  rw [push] at h
  obtain ⟨size, hsize, h⟩ := bind_eq_ok.mp h
  cases h
  exact ⟨by simp [content], by rw [length_content]; exact (Word.eq_of_fit hsize).symm⟩

/-- A width with a directive takes any value, another one only zero. -/
theorem grows_allocate {width : Nat} {value : Int} (h : d.allocate width value = .ok d') :
    d.Grows d' (littleEndian width value) := by
  rw [allocate] at h
  split at h
  · next w hw =>
    have hwidth : w.bytes = width := by simpa using List.find?_some hw
    rw [← hwidth]
    exact grows_push h
  · split at h
    · next hzero =>
      rw [hzero, littleEndian_zero]
      exact grows_push h
    · cases h

end Data

end Machine

namespace Lowering

open Machine (Data littleEndian)

variable {d d' : Data}

/-! ## Lowering a global -/

theorem grows_pushZeros {n : Nat} (h : pushZeros d n = .ok d') :
    d.Grows d' (List.replicate n 0) := by
  rw [pushZeros] at h
  split at h
  · next hzero =>
    cases h
    rw [hzero]
    exact Data.Grows.refl d
  · exact Data.grows_push h

/-- The bytes of numbers of the given sizes; `value` counts from zero. -/
def valueBytes (value : Nat → Int) : List Nat → List UInt8
  | [] => []
  | size :: sizes => littleEndian size (value 0) ++ valueBytes (fun i => value (i + 1)) sizes

theorem length_valueBytes (value : Nat → Int) (sizes : List Nat) :
    (valueBytes value sizes).length = sizes.sum := by
  induction sizes generalizing value with
  | nil => rfl
  | cons size sizes ih => simp [valueBytes, ih]

theorem valueBytes_zero (sizes : List Nat) :
    valueBytes (fun _ => 0) sizes = List.replicate sizes.sum 0 := by
  induction sizes with
  | nil => rfl
  | cons size sizes ih =>
    rw [valueBytes, Machine.littleEndian_zero, ih, List.sum_cons, List.replicate_append_replicate]

/-- The number that a list of values gives the `i`-th scalar. -/
def listed (values : List Int64) (i : Nat) : Int :=
  match values[i]? with
  | some v => v.toInt
  | none => 0

theorem grows_allocateAll {sizes : List Nat} {values : List Int64}
    (h : allocateAll d sizes values = .ok d') : d.Grows d' (valueBytes (listed values) sizes) := by
  induction sizes generalizing d values with
  | nil =>
    cases h
    exact Data.Grows.refl _
  | cons size sizes ih =>
    rw [allocateAll] at h
    obtain ⟨mid, hfirst, hrest⟩ := bind_eq_ok.mp h
    have htail : listed values.tail = fun i => listed values (i + 1) := by
      funext i
      cases values <;> rfl
    have hhead : listed values 0 = match values.head? with
        | some v => v.toInt
        | none => 0 := by
      cases values <;> rfl
    rw [valueBytes, ← htail, hhead]
    exact (Data.grows_allocate hfirst).trans (ih hrest)

/-- The number that a single value gives the `i`-th scalar. -/
def firstOnly (value : Int64) (i : Nat) : Int := if i = 0 then value.toInt else 0

theorem grows_allocateFirst {sizes : List Nat} {value : Int64}
    (h : allocateFirst d value sizes = .ok d') :
    d.Grows d' (valueBytes (firstOnly value) sizes) := by
  cases sizes with
  | nil =>
    cases h
    exact Data.Grows.refl d
  | cons size sizes =>
    rw [allocateFirst] at h
    obtain ⟨mid, hfirst, hrest⟩ := bind_eq_ok.mp h
    have hzeros : valueBytes (fun i => firstOnly value (i + 1)) sizes =
        List.replicate (sizes.foldr (· + ·) 0) 0 := valueBytes_zero sizes
    rw [valueBytes, hzeros]
    exact (Data.grows_allocate hfirst).trans (grows_pushZeros hrest)

/-! ## What the bytes say -/

/-- The bytes of the scalar hold the number. -/
def Holds (image : List UInt8) (s : Ir.Scalar) (value : Int) : Prop :=
  (image.drop s.offset).take s.bytes = littleEndian s.bytes value

theorem holds_valueBytes {start stop : Nat} {ss : List Ir.Scalar}
    (h : Ir.Ty.Tiles start stop ss) (before : List UInt8) (hbefore : before.length = start)
    (value : Nat → Int) {i : Nat} {s : Ir.Scalar} (hs : ss[i]? = some s) :
    Holds (before ++ valueBytes value (ss.map Ir.Scalar.bytes)) s (value i) := by
  induction ss generalizing start before value i with
  | nil => cases hs
  | cons t ss ih =>
    rw [List.map_cons, valueBytes]
    cases i with
    | zero =>
      cases hs
      rw [Holds, h.1, ← hbefore, List.drop_left, List.take_left' (Machine.length_littleEndian _ _)]
    | succ i =>
      rw [← List.append_assoc]
      refine ih h.2 _ ?_ _ hs
      rw [List.length_append, Machine.length_littleEndian, hbefore]

/-- The image of a global of `size` bytes with these scalars: zeros without an initializer, a number
in the first scalar or one in each, a text with a zero byte behind it; what is left is zero. -/
def IsImage (initializer : Option Ir.Initializer) (size : Nat) (scalars : List Ir.Scalar)
    (image : List UInt8) : Prop :=
  match initializer with
  | none => image = List.replicate size 0
  | some (.int value) =>
    image.length = size ∧ ∀ i s, scalars[i]? = some s → Holds image s (firstOnly value i)
  | some (.list values) =>
    image.length = size ∧ ∀ i s, scalars[i]? = some s → Holds image s (listed values i)
  | some (.str text) =>
    image = text.toUTF8.toList ++ [0] ++ List.replicate (size - (text.utf8ByteSize + 1)) 0

/-- How many bytes a global takes: its size, or a longer text with its zero byte. -/
def imageSize (initializer : Option Ir.Initializer) (size : Nat) : Nat :=
  match initializer with
  | some (.str text) => max size (text.utf8ByteSize + 1)
  | _ => size

variable {pointerBytes : Nat} {g : Ir.Global}

/-- The scalars of a type cover as many bytes as its size counts. -/
theorem tiles_of_size {ty : Ir.Ty} {size : Nat} (h : ty.size pointerBytes = .ok size) :
    Ir.Ty.Tiles 0 size (ty.scalars pointerBytes 0) := by
  have htiles : Ir.Ty.Tiles 0 (0 + ty.extent pointerBytes) (ty.scalars pointerBytes 0) :=
    Ir.Ty.tiles_scalars 0 ty
  rwa [Nat.zero_add, Ir.Ty.extent_of_size h] at htiles

theorem grows_lowerGlobal {size : Nat} (hsize : g.ty.size pointerBytes = .ok size)
    (h : lowerGlobal pointerBytes g = .ok d) :
    ∃ image, ({ name := g.name : Data }).Grows d image ∧
      image.length = imageSize g.initializer size ∧
      IsImage g.initializer size (g.ty.scalars pointerBytes 0) image := by
  have htiles := tiles_of_size hsize
  have hlength (value : Nat → Int) :
      (valueBytes value ((g.ty.scalars pointerBytes 0).map Ir.Scalar.bytes)).length = size := by
    rw [length_valueBytes, ← htiles.sum, Nat.zero_add]
  rw [lowerGlobal, hsize, ok_bind, Ir.Ty.leaves_eq_map_scalars 0 g.ty] at h
  obtain ⟨count, -, h⟩ := bind_eq_ok.mp h
  cases hinit : g.initializer with
  | none =>
    rw [hinit] at h
    exact ⟨_, grows_pushZeros h, List.length_replicate, rfl⟩
  | some initializer =>
    rw [hinit] at h
    cases initializer with
    | int value =>
      exact ⟨_, grows_allocateFirst h, hlength _, hlength _,
        fun i s hs => holds_valueBytes htiles [] rfl _ hs⟩
    | list values =>
      dsimp only at h
      split at h
      · cases h
      · exact ⟨_, grows_allocateAll h, hlength _, hlength _,
          fun i s hs => holds_valueBytes htiles [] rfl _ hs⟩
    | str text =>
      obtain ⟨mid, htext, hzeros⟩ := bind_eq_ok.mp h
      refine ⟨_, (Data.grows_push htext).trans (grows_pushZeros hzeros), ?_, rfl⟩
      rw [List.length_append, Machine.length_content, List.length_replicate]
      simp only [Machine.DataEntry.bytes, imageSize]
      omega

/-- **Static data has the bytes of its initializer.**  Reading the directives gives as many bytes as
the data counts, they are the image of the global, and no byte lies outside its scalars. -/
theorem image_lowerGlobal (h : lowerGlobal pointerBytes g = .ok d) :
    ∃ size image, g.ty.size pointerBytes = .ok size ∧ d.image? = some image ∧
      image.length = d.size ∧ d.size = imageSize g.initializer size ∧
      IsImage g.initializer size (g.ty.scalars pointerBytes 0) image ∧
      ∀ k < size, ∃ (i : Nat) (s : Ir.Scalar), (g.ty.scalars pointerBytes 0)[i]? = some s ∧
        s.offset ≤ k ∧ k < s.offset + s.bytes := by
  obtain ⟨size, hsize, -⟩ := bind_eq_ok.mp h
  obtain ⟨image, hgrows, hlength, himage⟩ := grows_lowerGlobal hsize h
  have hcounted : image.length = d.size := by
    rw [hgrows.size]
    exact (Nat.zero_add _).symm
  refine ⟨size, image, hsize, ?_, hcounted, hcounted.symm.trans hlength, himage,
    fun k hk => (tiles_of_size hsize).exists_scalar (Nat.zero_le k) hk⟩
  rw [d.image?_eq, hgrows.content]
  rfl

/-- Two records of a word, a byte and a pointer, with one value too few. -/
def records : Ir.Global where
  name := "records"
  ty := .array 2 (.struct none [.i32, .u8, .ptr .void])
  initializer := some (.list [-2, 300, 7, 1, 255])

theorem image_records :
    ∃ d size image, lowerGlobal 8 records = .ok d ∧ records.ty.size 8 = .ok size ∧
      d.image? = some image ∧ image.length = d.size ∧
      d.size = imageSize records.initializer size ∧
      IsImage records.initializer size (records.ty.scalars 8 0) image ∧
      ∀ k < size, ∃ (i : Nat) (s : Ir.Scalar), (records.ty.scalars 8 0)[i]? = some s ∧
        s.offset ≤ k ∧ k < s.offset + s.bytes := by
  have h : ∃ d, lowerGlobal 8 records = .ok d := ⟨_, rfl⟩
  obtain ⟨d, hd⟩ := h
  obtain ⟨size, image, hall⟩ := image_lowerGlobal hd
  exact ⟨d, size, image, hd, hall⟩

/-- What does not fit a byte is cut off, and the last pointer has no value of its own. -/
example : (lowerGlobal 8 records).toOption.map Data.content =
    some [0xfe, 0xff, 0xff, 0xff, 0x2c, 7, 0, 0, 0, 0, 0, 0, 0,
      1, 0, 0, 0, 0xff, 0, 0, 0, 0, 0, 0, 0, 0] := by
  rfl

end Lowering

end Retarget
