import HookKit.Lib.LittleEndian
import Mathlib.Data.List.Pairwise

/-!
# Words in a byte memory

A memory is a function from addresses to bytes; a word is eight bytes of it, the lowest first.

* `readWord`, `writeWord` — `memcpy` of a word out of the memory and into it.
* `Separate a b` — the words at `a` and at `b` have no byte in common; `HalfSeparate` the same for a
  half word.
* `readWord_writeWord`, `readWord_writeWord_of_separate` — what is read after a write.
-/

set_option autoImplicit false

namespace WordMemory

open LittleEndian

variable {mem mem' : BitVec 64 → BitVec 8} {a b x : BitVec 64}

/-- The bytes of the word at an address. -/
def bytesAt (mem : BitVec 64 → BitVec 8) (a : BitVec 64) : List (BitVec 8) :=
  (List.range 8).map fun i ↦ mem (a + BitVec.ofNat 64 i)

/-- The word at an address. -/
def readWord (mem : BitVec 64 → BitVec 8) (a : BitVec 64) : BitVec 64 :=
  BitVec.ofNat 64 ((readLE 8 (bytesAt mem a) 0).getD 0)

/-- Store a word. -/
def writeWord (mem : BitVec 64 → BitVec 8) (a v : BitVec 64) : BitVec 64 → BitVec 8 :=
  fun x ↦ ((littleEndian 8 v.toNat)[(x - a).toNat]?).getD (mem x)

/-- The words at two addresses have no byte in common. -/
def Separate (a b : BitVec 64) : Prop := 8 ≤ (a - b).toNat ∧ 8 ≤ (b - a).toNat

instance : DecidableRel Separate := fun _ _ ↦ inferInstanceAs (Decidable (_ ∧ _))

theorem Separate.symm (h : Separate a b) : Separate b a := ⟨h.2, h.1⟩

/-- A byte of one of them is no byte of the other. -/
theorem Separate.outside (h : Separate a b) {i : Nat} (hi : i < 8) :
    8 ≤ (a + BitVec.ofNat 64 i - b).toNat := by
  obtain ⟨hab, hba⟩ := h
  bv_omega

/-- Reading depends on the eight bytes only. -/
theorem readWord_congr (h : ∀ i < 8, mem (a + BitVec.ofNat 64 i) = mem' (a + BitVec.ofNat 64 i)) :
    readWord mem a = readWord mem' a := by
  have hbytes : bytesAt mem a = bytesAt mem' a :=
    List.map_congr_left fun i hi ↦ h i (List.mem_range.mp hi)
  rw [readWord, readWord, hbytes]

theorem writeWord_outside (v : BitVec 64) (h : 8 ≤ (x - a).toNat) :
    writeWord mem a v x = mem x := by
  have hlen : (littleEndian 8 v.toNat).length ≤ (x - a).toNat := by
    rw [littleEndian_length]
    exact h
  rw [writeWord, List.getElem?_eq_none hlen, Option.getD_none]

theorem bytesAt_writeWord (mem : BitVec 64 → BitVec 8) (a v : BitVec 64) :
    bytesAt (writeWord mem a v) a = littleEndian 8 v.toNat := by
  refine List.ext_getElem (by simp [bytesAt]) fun i hi hi' ↦ ?_
  have hlt : i < 8 := by
    rwa [littleEndian_length] at hi'
  have hoff : (a + BitVec.ofNat 64 i - a).toNat = i := by bv_omega
  simp only [bytesAt, List.getElem_map, List.getElem_range, writeWord, hoff]
  rw [List.getElem?_eq_getElem hi', Option.getD_some]

/-- What was stored is read back. -/
@[simp] theorem readWord_writeWord (mem : BitVec 64 → BitVec 8) (a v : BitVec 64) :
    readWord (writeWord mem a v) a = v := by
  have hv : v.toNat < 256 ^ 8 := v.isLt
  have hread : readLE 8 (littleEndian 8 v.toNat) 0 = some v.toNat :=
    readLE_littleEndian hv (List.prefix_refl _)
  rw [readWord, bytesAt_writeWord, hread, Option.getD_some, BitVec.ofNat_toNat, BitVec.setWidth_eq]

/-- A word that shares no byte with the one written keeps its value. -/
theorem readWord_writeWord_of_separate (v : BitVec 64) (h : Separate b a) :
    readWord (writeWord mem a v) b = readWord mem b :=
  readWord_congr fun _ hi ↦ writeWord_outside v (h.outside hi)

/-! ## Half words -/

/-- The four bytes at an address. -/
def readHalf (mem : BitVec 64 → BitVec 8) (a : BitVec 64) : BitVec 32 :=
  mem (a + 3) ++ (mem (a + 2) ++ (mem (a + 1) ++ mem a))

/-- The half word at `b` has no byte in common with the word at `a`. -/
def HalfSeparate (b a : BitVec 64) : Prop := 8 ≤ (b - a).toNat ∧ 4 ≤ (a - b).toNat

instance : DecidableRel HalfSeparate := fun _ _ ↦ inferInstanceAs (Decidable (_ ∧ _))

/-- A half word that shares no byte with a word that is written keeps its value. -/
theorem readHalf_writeWord_of_separate (v : BitVec 64) (h : HalfSeparate b a) :
    readHalf (writeWord mem a v) b = readHalf mem b := by
  obtain ⟨hba, hab⟩ := h
  rw [readHalf, readHalf, writeWord_outside v hba, writeWord_outside v (by bv_omega),
    writeWord_outside v (by bv_omega), writeWord_outside v (by bv_omega)]

@[simp] theorem readWord_zero (a : BitVec 64) : readWord (fun _ ↦ 0) a = 0 := by
  rw [readWord, bytesAt, List.map_const', List.length_range]
  decide

end WordMemory
