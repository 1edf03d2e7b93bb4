import Mathlib.Algebra.Group.Nat.Defs

/-!
# Bytes in memory

Memory is a byte for each address.  A word is stored as the bytes it needs, the lowest first, and
read back unchanged (`loadBits_storeBits`); words at other addresses stay (`loadBits_of_apart`).
-/

namespace Retarget.Machine

/-- A byte for every address of `p` bits. -/
abbrev Memory (p : Nat) : Type := BitVec p → BitVec 8

/-- The bytes that a word of `width` bits takes. -/
def byteCount (width : Nat) : Nat := (width + 7) / 8

namespace Memory

variable {p : Nat}

/-- The number that `count` bytes from an address on make up. -/
def load (m : Memory p) (a : BitVec p) : Nat → Nat
  | 0 => 0
  | count + 1 => (m a).toNat + 256 * load m (a + 1) count

/-- The memory with the low `count` bytes of a number from an address on. -/
def store (m : Memory p) (a : BitVec p) : Nat → Nat → Memory p
  | 0, _ => m
  | count + 1, v => fun x => if x = a then BitVec.ofNat 8 v else store m (a + 1) count (v / 256) x

def loadBits (m : Memory p) (a : BitVec p) (width : Nat) : BitVec width :=
  BitVec.ofNat width (m.load a (byteCount width))

def storeBits (m : Memory p) (a : BitVec p) {width : Nat} (v : BitVec width) : Memory p :=
  m.store a (byteCount width) v.toNat

/-- The addresses of `count` bytes from `a` on. -/
def Within (a : BitVec p) (count : Nat) (x : BitVec p) : Prop :=
  ∃ n < count, x = a + BitVec.ofNat p n

theorem add_ofNat_succ (a : BitVec p) (n : Nat) :
    a + BitVec.ofNat p (n + 1) = a + 1 + BitVec.ofNat p n := by
  rw [BitVec.ofNat_add, BitVec.add_assoc, BitVec.add_comm (BitVec.ofNat p n)]
  rfl

theorem within_succ {a x : BitVec p} {count : Nat} :
    Within a (count + 1) x ↔ x = a ∨ Within (a + 1) count x := by
  constructor
  · rintro ⟨n, hn, rfl⟩
    cases n with
    | zero => exact .inl (by simp)
    | succ n => exact .inr ⟨n, by omega, add_ofNat_succ a n⟩
  · rintro (rfl | ⟨n, hn, rfl⟩)
    · exact ⟨0, by omega, by simp⟩
    · exact ⟨n + 1, by omega, (add_ofNat_succ a n).symm⟩

theorem store_of_not_within (m : Memory p) {a x : BitVec p} {count : Nat} (v : Nat)
    (h : ¬ Within a count x) : m.store a count v x = m x := by
  induction count generalizing a v with
  | zero => rfl
  | succ count ih =>
    rw [within_succ, not_or] at h
    show (if x = a then _ else _) = _
    rw [if_neg h.1]
    exact ih (v / 256) h.2

theorem load_congr {m m' : Memory p} {a : BitVec p} {count : Nat}
    (h : ∀ x, Within a count x → m x = m' x) : m.load a count = m'.load a count := by
  induction count generalizing a with
  | zero => rfl
  | succ count ih =>
    rw [load, load, h a (within_succ.mpr (.inl rfl)),
      ih fun x hx => h x (within_succ.mpr (.inr hx))]

theorem not_within_succ {a : BitVec p} {count : Nat} (h : count < 2 ^ p) :
    ¬ Within (a + 1) count a := by
  rintro ⟨n, hn, heq⟩
  rw [← add_ofNat_succ] at heq
  have hnat := congrArg BitVec.toNat heq
  rw [BitVec.toNat_add, BitVec.toNat_ofNat, Nat.mod_eq_of_lt (show n + 1 < 2 ^ p by omega)] at hnat
  have hlt := a.isLt
  rcases Nat.lt_or_ge (a.toNat + (n + 1)) (2 ^ p) with hsmall | hlarge
  · rw [Nat.mod_eq_of_lt hsmall] at hnat
    omega
  · rw [Nat.mod_eq_sub_mod hlarge, Nat.mod_eq_of_lt (by omega)] at hnat
    omega

theorem load_store (m : Memory p) (a : BitVec p) {count : Nat} (h : count ≤ 2 ^ p) (v : Nat) :
    (m.store a count v).load a count = v % 256 ^ count := by
  induction count generalizing a v with
  | zero => simp [load, Nat.mod_one]
  | succ count ih =>
    have hrest : (m.store a (count + 1) v).load (a + 1) count = v / 256 % 256 ^ count := by
      rw [← ih (a + 1) (by omega) (v / 256)]
      refine load_congr fun x hx => ?_
      show (if x = a then _ else _) = _
      rw [if_neg]
      rintro rfl
      exact not_within_succ (by omega) hx
    rw [load, hrest]
    have hfirst : m.store a (count + 1) v a = BitVec.ofNat 8 v := if_pos rfl
    rw [hfirst, BitVec.toNat_ofNat, show 2 ^ 8 = 256 from rfl, Nat.pow_succ', Nat.mod_mul]

/-! ## Words -/

theorem loadBits_storeBits (m : Memory p) (a : BitVec p) {width : Nat} (v : BitVec width)
    (h : byteCount width ≤ 2 ^ p) : (m.storeBits a v).loadBits a width = v := by
  have hwidth : v.toNat < 256 ^ byteCount width := by
    have hbits : width ≤ 8 * byteCount width := by
      rw [byteCount]
      omega
    calc v.toNat < 2 ^ width := v.isLt
      _ ≤ 2 ^ (8 * byteCount width) := Nat.pow_le_pow_right (by omega) hbits
      _ = 256 ^ byteCount width := Nat.pow_mul 2 8 _
  rw [loadBits, storeBits, load_store m a h, Nat.mod_eq_of_lt hwidth, BitVec.ofNat_toNat,
    BitVec.setWidth_eq]

theorem loadBits_of_apart (m : Memory p) {a a' : BitVec p} {width width' : Nat} (v : BitVec width)
    (h : ∀ x, Within a' (byteCount width') x → ¬ Within a (byteCount width) x) :
    (m.storeBits a v).loadBits a' width' = m.loadBits a' width' := by
  rw [loadBits, loadBits, storeBits]
  congr 1
  exact load_congr fun x hx => store_of_not_within m v.toNat (h x hx)

end Memory

end Retarget.Machine
