import Mathlib.Algebra.GroupWithZero.Nat
import Mathlib.Algebra.Order.BigOperators.Group.List
import Mathlib.Algebra.Order.Group.Nat
import Retarget.Proofs.Stack.FrameCode

/-!
# The layout of frames

The objects of a frame lie one after another, so objects of different slots take different bytes
(`Frame.liesIn_of_size`).  The code of a frame reserves all of them with the slots for the registers
to save, stores these registers at the entry and loads them before returns, and keeps the rest of
every block as it was (`Function.reserves_insertFrameCode`).
-/

namespace Retarget

open Machine Target

/-! ## Objects one after another -/

namespace Machine.Frame

variable {frame : Frame} {objects : List FrameObject} {k total : Nat}

def bytes (objects : List FrameObject) : Nat := (objects.map (·.size)).sum

@[simp] theorem bytes_cons (o : FrameObject) (objects : List FrameObject) :
    bytes (o :: objects) = o.size + bytes objects := by
  simp [bytes]

/-- The objects before an object, and that object, are no larger than the ones before a later
one. -/
theorem bytes_take_add_le {k' : Nat} (hk : k < objects.length) (hlt : k < k') :
    bytes (objects.take k) + objects[k].size ≤ bytes (objects.take k') := by
  have hlength : k < (objects.map (·.size)).length := by rwa [List.length_map]
  calc
    bytes (objects.take k) + objects[k].size = ((objects.map (·.size)).take (k + 1)).sum := by
      rw [List.sum_take_succ _ k hlength, bytes, List.map_take, List.getElem_map]
    _ ≤ ((objects.map (·.size)).take k').sum := List.monotone_sum_take _ hlt
    _ = bytes (objects.take k') := by rw [bytes, List.map_take]

theorem size_eq_ok (h : frame.size = .ok total) :
    bytes frame.objects = total ∧ total < Word.modulus 32 := by
  rw [Frame.size, Word.fit, ← List.foldr_map] at h
  split at h
  · next hlt =>
    cases h
    exact ⟨rfl, hlt⟩
  · cases h

theorem positionFrom_getElem (hnodup : (objects.map (·.slot)).Nodup) {start : Nat}
    (hfit : start + bytes objects < Word.modulus 32) (hk : k < objects.length) :
    positionFrom objects[k].slot start objects =
      .ok (some (start + bytes (objects.take k))) := by
  induction objects generalizing start k with
  | nil => cases hk
  | cons o objects ih =>
    obtain ⟨ho, hnodup⟩ := List.nodup_cons.mp hnodup
    rw [bytes_cons, ← Nat.add_assoc] at hfit
    cases k with
    | zero => simp [positionFrom, bytes]
    | succ k =>
      have hk : k < objects.length := Nat.lt_of_succ_lt_succ hk
      have hother : (o.slot == objects[k].slot) = false := by
        refine beq_false_of_ne fun heq => ho ?_
        exact List.mem_map.mpr ⟨objects[k], List.getElem_mem hk, heq.symm⟩
      have hnext : Word.fit 32 (start + o.size) = .ok (start + o.size) :=
        if_pos (Nat.lt_of_le_of_lt (Nat.le_add_right _ _) hfit)
      rw [List.getElem_cons_succ, positionFrom, hother, if_neg Bool.false_ne_true, hnext, ok_bind,
        ih hnodup hfit hk, List.take_succ_cons, bytes_cons, Nat.add_assoc]

theorem find?_getElem (hnodup : (objects.map (·.slot)).Nodup) (hk : k < objects.length) :
    objects.find? (·.slot == objects[k].slot) = some objects[k] := by
  rw [List.find?_eq_some_iff_getElem]
  refine ⟨beq_self_eq_true _, k, hk, rfl, fun j hj => ?_⟩
  have hne : objects[j].slot ≠ objects[k].slot := by
    intro heq
    have hj' : j < (objects.map (·.slot)).length := by
      rw [List.length_map]
      omega
    have hk' : k < (objects.map (·.slot)).length := by rwa [List.length_map]
    have hindex : (objects.map (·.slot))[j] = (objects.map (·.slot))[k] := by simpa using heq
    exact absurd ((List.Nodup.getElem_inj_iff hnodup).mp hindex) (Nat.ne_of_lt hj)
  simpa using hne

/-- The object of the slot takes `size` bytes from `position` on. -/
structure Holds (frame : Frame) (slot : Slot) (position size : Nat) : Prop where
  position : frame.position? slot = .ok (some position)
  size : frame.objectSize? slot = some size

/-- The objects take different bytes of the first `size` ones. -/
structure LiesIn (frame : Frame) (size : Nat) : Prop where
  within : ∀ o ∈ frame.objects, ∃ position,
    frame.Holds o.slot position o.size ∧ position + o.size ≤ size
  apart : ∀ slot slot' position position' n n', slot ≠ slot' → frame.Holds slot position n →
    frame.Holds slot' position' n' → position + n ≤ position' ∨ position' + n' ≤ position

section

variable (hnodup : (frame.objects.map (·.slot)).Nodup) (hsize : frame.size = .ok total)
include hnodup hsize

theorem holds_getElem (hk : k < frame.objects.length) :
    frame.Holds frame.objects[k].slot (bytes (frame.objects.take k)) frame.objects[k].size := by
  obtain ⟨htotal, hlt⟩ := size_eq_ok hsize
  refine ⟨?_, ?_⟩
  · rw [position?, positionFrom_getElem hnodup (by omega) hk, Nat.zero_add]
  · rw [objectSize?, find?_getElem hnodup hk]
    rfl

theorem exists_getElem_of_holds {slot : Slot} {position n : Nat} (h : frame.Holds slot position n) :
    ∃ k, ∃ hk : k < frame.objects.length, frame.objects[k].slot = slot ∧
      position = bytes (frame.objects.take k) ∧ n = frame.objects[k].size := by
  obtain ⟨o, ho, -⟩ := Option.map_eq_some_iff.mp h.size
  obtain ⟨k, hk, rfl⟩ := List.getElem_of_mem (List.mem_of_find?_eq_some ho)
  have hslot : frame.objects[k].slot = slot := by simpa using List.find?_some ho
  have hholds := holds_getElem hnodup hsize hk
  rw [hslot] at hholds
  cases hholds.position.symm.trans h.position
  cases hholds.size.symm.trans h.size
  exact ⟨k, hk, hslot, rfl, rfl⟩

/-- **Objects of different slots take different bytes** of the frame. -/
theorem liesIn_of_size {aligned : Nat} (hle : total ≤ aligned) : frame.LiesIn aligned where
  within o ho := by
    obtain ⟨k, hk, rfl⟩ := List.getElem_of_mem ho
    have htake := bytes_take_add_le hk hk
    rw [List.take_length, (size_eq_ok hsize).1] at htake
    exact ⟨_, holds_getElem hnodup hsize hk, htake.trans hle⟩
  apart slot slot' position position' n n' hne h h' := by
    obtain ⟨k, hk, hslot, rfl, rfl⟩ := exists_getElem_of_holds hnodup hsize h
    obtain ⟨k', hk', hslot', rfl, rfl⟩ := exists_getElem_of_holds hnodup hsize h'
    have hkne : k ≠ k' := by
      rintro rfl
      exact hne (hslot.symm.trans hslot')
    exact (Nat.lt_or_gt_of_ne hkne).imp (bytes_take_add_le hk) (bytes_take_add_le hk')

end

end Machine.Frame

theorem Word.dvd_of_alignTo {value alignment aligned : Nat} (halignment : alignment ≠ 0)
    (h : Word.alignTo value alignment = .ok aligned) : alignment ∣ aligned := by
  rw [Word.alignTo, if_neg halignment, Word.fit] at h
  split at h
  · cases h
    exact Nat.dvd_mul_left _ _
  · cases h

namespace Machine.Function

variable {a : Arch} {f g : Function} {size k : Nat} {places : List (RegId × Int)}

/-! ## Blocks -/

/-- `new` is the block `old` behind the code `entry`, with code that enacts the effects in front of
the first return, if there is one. -/
structure Wraps (a : Arch) (entry : List Instruction) (es : List StackEffect) (old new : Block) :
    Prop where
  name : new.name = old.name
  code : ∃ body exit tail, old.instructions = body ++ tail ∧
    new.instructions = entry ++ (body ++ (exit ++ tail)) ∧
    (∀ i ∈ body, i.isReturn = false) ∧
    (exit = [] ∧ tail = [] ∨ List.Forall₂ a.Enacts exit es ∧
      ∃ ret rest, tail = ret :: rest ∧ ret.isReturn)

theorem wraps_of_receives {es : List StackEffect} {b : Nat} {old new : Block}
    (hold : f.blocks[b]? = some old) (h : Receives a es f.returns.reverse b old new) :
    Wraps a [] es old new := by
  have hreturns : ∀ k, (b, k) ∈ f.returns.reverse ↔ old.returnIndex? = some k := by
    intro k
    rw [List.mem_reverse, mem_returns]
    exact ⟨fun ⟨_, hblock, hk⟩ => Option.some.inj (hold.symm.trans hblock) ▸ hk,
      fun hk => ⟨old, hold, hk⟩⟩
  rcases h with ⟨hnone, rfl⟩ | ⟨k, js, hmem, hjs, rfl⟩
  · have hindex : new.returnIndex? = none := by
      rw [Option.eq_none_iff_forall_ne_some]
      intro k hk
      exact hnone (List.mem_map_of_mem (f := (·.1)) ((hreturns k).mpr hk))
    exact ⟨rfl, new.instructions, [], [], by simp, by simp, List.findIdx?_eq_none_iff.mp hindex,
      .inl ⟨rfl, rfl⟩⟩
  · obtain ⟨hk, hret, hbefore⟩ := List.findIdx?_eq_some_iff_getElem.mp ((hreturns k).mp hmem)
    refine ⟨rfl, old.instructions.take k, js, old.instructions.drop k, by simp,
      by simp [Block.splice], fun i hi => ?_, .inr ⟨hjs, old.instructions[k],
        old.instructions.drop (k + 1), List.drop_eq_getElem_cons hk, hret⟩⟩
    obtain ⟨j, hj, rfl⟩ := List.mem_take_iff_getElem.mp hi
    simpa using hbefore j (by omega)

theorem Wraps.splice {es : List StackEffect} {old new : Block} (h : Wraps a [] es old new)
    (entry : List Instruction) : Wraps a entry es old (new.splice 0 0 entry) := by
  obtain ⟨body, exit, tail, hold, hnew, hbody⟩ := h.code
  exact ⟨h.name, body, exit, tail, hold, by simp [Block.splice, hnew], hbody⟩

/-! ## Functions -/

/-- The slots of the registers to save, with their sizes. -/
def saveObjects (t : Target) (f : Function) : List FrameObject :=
  (f.registersToSave t).zipIdx.map fun e =>
    ⟨⟨saveSlotBase + e.2⟩, max (savedAt t e.1 e.2).2 Frame.minObjectSize⟩

theorem objects_savingFrame (t : Target) (f : Function) :
    (f.savingFrame t).objects = f.frame.objects ++ f.saveObjects t := by
  have hinsert : ∀ (saves : List (Saved × Nat)) (frame : Frame),
      (saves.foldl (fun frame s => frame.insert s.1.slot s.2) frame).objects =
        frame.objects ++ saves.map fun s => ⟨s.1.slot, max s.2 Frame.minObjectSize⟩ := by
    intro saves
    induction saves with
    | nil => simp
    | cons s saves ih =>
      intro frame
      rw [List.foldl_cons, ih]
      simp [Frame.insert]
  rw [savingFrame, hinsert, saveObjects, List.map_map]
  rfl

theorem slots_saveObjects (t : Target) (f : Function) : (f.saveObjects t).map (·.slot) =
    (List.range (f.registersToSave t).length).map fun n => ⟨saveSlotBase + n⟩ := by
  rw [List.range_eq_range', ← List.zipIdx_map_snd 0 (f.registersToSave t), saveObjects,
    List.map_map, List.map_map]
  rfl

theorem nodup_slots_savingFrame (t : Target) (hnodup : (f.frame.objects.map (·.slot)).Nodup)
    (hslots : ∀ o ∈ f.frame.objects, o.slot.id < saveSlotBase) :
    ((f.savingFrame t).objects.map (·.slot)).Nodup := by
  rw [objects_savingFrame, List.map_append, slots_saveObjects, List.nodup_append']
  refine ⟨hnodup, List.nodup_range.map fun m n h => ?_, fun slot hslot hsaved => ?_⟩
  · simpa using h
  · obtain ⟨o, ho, rfl⟩ := List.mem_map.mp hslot
    obtain ⟨n, -, heq⟩ := List.mem_map.mp hsaved
    have hlt := hslots o ho
    rw [← heq] at hlt
    exact absurd hlt (Nat.not_lt.mpr (Nat.le_add_right _ _))

/-- A register to save has a slot that is as wide as the register. -/
theorem exists_holds_of_placesOf {total n : Nat} {place : RegId × Int}
    (hframe : ((f.savingFrame a.target).objects.map (·.slot)).Nodup)
    (hsize : (f.savingFrame a.target).size = .ok total)
    (h : (placesOf a.target f (f.savingFrame a.target))[n]? = some place) :
    ∃ position bytes, place.2 = Int.ofNat position ∧
      (f.savingFrame a.target).Holds ⟨saveSlotBase + n⟩ position bytes ∧
      ∀ r, a.target.registers.get? place.1 = some r → r.bits ≤ 8 * bytes := by
  rw [placesOf, List.getElem?_map, List.getElem?_zipIdx, Nat.zero_add] at h
  obtain ⟨_, hentry, rfl⟩ := Option.map_eq_some_iff.mp h
  obtain ⟨reg, hreg, rfl⟩ := Option.map_eq_some_iff.mp hentry
  have hmem : (⟨⟨saveSlotBase + n⟩, max (savedAt a.target reg n).2 Frame.minObjectSize⟩ :
      FrameObject) ∈ (f.savingFrame a.target).objects := by
    rw [objects_savingFrame]
    refine List.mem_append_right _ (List.mem_map.mpr ⟨(reg, n), ?_, rfl⟩)
    exact List.mem_zipIdx_iff_getElem?.mpr hreg
  obtain ⟨position, hholds, -⟩ := (Frame.liesIn_of_size hframe hsize (Nat.le_refl _)).within _ hmem
  have hposition : (f.savingFrame a.target).position? (savedAt a.target reg n).1.slot =
      .ok (some position) := hholds.position
  refine ⟨position, _, ?_, hholds, fun r hr => ?_⟩
  · show placeOf _ _ = _
    rw [placeOf, hposition]
    rfl
  · have hwidth : ∀ r ∈ a.target.registers.file, 8 ∣ r.bits := by
      cases a <;> decide +kernel
    have hsaved : (savedAt a.target reg n).2 = r.bits / 8 := by
      replace hr : a.target.registers.get? reg = some r := hr
      simp only [savedAt, hr]
    calc
      r.bits = 8 * (r.bits / 8) :=
        (Nat.mul_div_cancel' (hwidth r (List.mem_of_getElem? hr))).symm
      _ ≤ 8 * max (savedAt a.target reg n).2 Frame.minObjectSize :=
        Nat.mul_le_mul_left 8 (hsaved ▸ Nat.le_max_left _ _)

/-- `g` is `f` with a frame of `size` bytes: all objects of `f` and the slots of the registers to
save have bytes of their own in it.  The first block starts with a move of the stack pointer and the
stores of these registers to their places; before the first return of every block stand the loads
from there, in the opposite order, and the move back.  Everything else is as in `f`. -/
structure Reserves (a : Arch) (size : Nat) (places : List (RegId × Int)) (f g : Function) :
    Prop where
  size_le : size ≤ maxFrameSize
  aligned : a.target.convention.stackAlignment ∣ size
  lies : g.frame.LiesIn size
  objects : ∃ saves, g.frame.objects = f.frame.objects ++ saves ∧
    saves.map (·.slot) = (List.range places.length).map fun n => ⟨saveSlotBase + n⟩
  saved : places.map (·.1) =
    (if f.isCaller then [a.target.registers.link] else []) ++ f.usedCalleeSaved
  slots : ∀ n place, places[n]? = some place → ∃ position bytes, place.2 = Int.ofNat position ∧
    g.frame.Holds ⟨saveSlotBase + n⟩ position bytes ∧
    ∀ r, a.target.registers.get? place.1 = some r → r.bits ≤ 8 * bytes
  nonempty : f.blocks ≠ []
  code : ∃ entry, List.Forall₂ a.Enacts entry (StackView.enterEffects size places) ∧
    ∀ b old new, f.blocks[b]? = some old → g.blocks[b]? = some new →
      Wraps a (if b = 0 then entry else []) (StackView.leaveEffects size places) old new
  rest : g.blocks.length = f.blocks.length ∧ g = { f with frame := g.frame, blocks := g.blocks }

/-- **Frame code lays out the frame and wraps the blocks**, if the slots of the function are
distinct and numbered below the save slots. -/
theorem reserves_insertFrameCode (hnodup : (f.frame.objects.map (·.slot)).Nodup)
    (hslots : ∀ o ∈ f.frame.objects, o.slot.id < saveSlotBase)
    (h : f.insertFrameCode a.target = .ok g) (hne : g ≠ f) :
    ∃ size places, f.Reserves a size places g := by
  rcases insertFrameCode_cases h with ⟨rfl, -, -⟩ |
    ⟨bytes, size, entry, leave, f₂, hbytes, hsize, hsmall, hreturns, hentry, hleave, hinsert, h⟩
  · exact absurd rfl hne
  have hframe := nodup_slots_savingFrame a.target hnodup hslots
  have hblocks : (f.returns.reverse.map (·.1)).Nodup := by
    rw [List.map_reverse, List.nodup_reverse]
    exact f.nodup_returns
  obtain ⟨hf₂, hlength, hreceives⟩ := insertAll_eq_ok hleave hblocks hinsert
  obtain ⟨js, hjs, rfl⟩ := insertSelected_eq_ok hentry h
  have hg : (f₂.modifyBlock 0 fun block => block.splice 0 0 js).frame = f.savingFrame a.target := by
    rw [hf₂]
    rfl
  refine ⟨size, placesOf a.target f (f.savingFrame a.target), hsmall, ?_, ?_, ?_,
    map_fst_placesOf _ _ _, ?_, ?_, ⟨js, hjs, fun b old new hold hnew => ?_⟩, ?_, ?_⟩
  · exact Word.dvd_of_alignTo (by cases a <;> decide) hsize
  · rw [hg]
    exact Frame.liesIn_of_size hframe hbytes (le_of_alignTo hsize)
  · rw [hg]
    exact ⟨_, objects_savingFrame _ _, by simp [slots_saveObjects, placesOf]⟩
  · rw [hg]
    exact fun n place => exists_holds_of_placesOf hframe hbytes
  · rintro hnil
    exact hreturns (by simp [returns, hnil])
  · rw [getElem?_modifyBlock] at hnew
    obtain ⟨mid, hmid, rfl⟩ := Option.map_eq_some_iff.mp hnew
    obtain ⟨old', hold', hmid⟩ := hreceives b mid hmid
    cases hold.symm.trans hold'
    have hwraps := wraps_of_receives hold hmid
    by_cases hb : 0 = b
    · rw [if_pos hb, if_pos hb.symm]
      exact hwraps.splice js
    · rw [if_neg hb, if_neg (Ne.symm hb)]
      exact hwraps
  · exact (List.length_modify ..).trans hlength
  · rw [hf₂]
    rfl

/-- A caller with two returns, one of them in its first block, two objects of odd sizes, and a
general and a floating point register to save. -/
def odd : Function :=
  let ret := (Instruction.generic .ret []).setOpcode AArch64.Op.ret.opcode
  { name := "f"
    blocks := [⟨"entry", [ret]⟩, ⟨"next", [AArch64.Op.bl.on [.function "g"], ret, ret]⟩]
    frame := ⟨[⟨⟨7⟩, 5⟩, ⟨⟨3⟩, 11⟩]⟩
    usedCalleeSaved := [AArch64.x 19, AArch64.d 8]
    isCaller := true }

theorem reserves_odd : ∃ g size places, odd.insertFrameCode aarch64 = .ok g ∧
    g.instructions.length = 16 ∧ g.frame.size = .ok 40 ∧ odd.Reserves .aarch64 size places g := by
  have hrun : (odd.insertFrameCode aarch64).map (fun g => (g.instructions.length, g.frame.size)) =
      .ok (16, .ok 40) := by
    decide +kernel
  obtain ⟨g, hg, hcounts⟩ := map_eq_ok.mp hrun
  obtain ⟨hlength, hsize⟩ := Prod.mk.inj hcounts
  have hne : g ≠ odd := by
    rintro rfl
    cases hlength
  obtain ⟨size, places, hreserves⟩ :=
    reserves_insertFrameCode (a := .aarch64) (f := odd) (by decide) (by decide) hg hne
  exact ⟨g, size, places, hg, hlength, hsize, hreserves⟩

end Machine.Function

end Retarget
