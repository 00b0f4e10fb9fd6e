import Mathlib.Data.List.Basic
import Mathlib.Data.BitVec
import Mathlib.Data.Nat.Bitwise
import Mathlib.Tactic.Ring

/-!
# Little-endian numbers and bit fields

* `littleEndian count v` — the low `count` bytes of a number, the lowest first.
* `readLE count bytes position` — the number that stands at a position, if it lies inside the bytes.
* `readAt count bytes position` — the bytes that stand there.
* `field lo width v` — the bits of a number from `lo` on.
-/

set_option autoImplicit false

namespace LittleEndian

/-- The low bytes of a number, the lowest first. -/
def littleEndian : Nat → Nat → List (BitVec 8)
  | 0, _ => []
  | count + 1, v => BitVec.ofNat 8 v :: littleEndian count (v / 256)

/-- Read a number; `none` outside the bytes. -/
def readLE : Nat → List (BitVec 8) → Nat → Option Nat
  | 0, _, _ => some 0
  | count + 1, bytes, position =>
    match bytes[position]?, readLE count bytes (position + 1) with
    | some b, some rest => some (b.toNat + 256 * rest)
    | _, _ => none

/-- Copy some bytes; `none` outside of them. -/
def readAt (count : Nat) (bytes : List (BitVec 8)) (position : Nat) : Option (List (BitVec 8)) :=
  if position + count ≤ bytes.length then some ((bytes.drop position).take count) else none

@[simp] theorem littleEndian_length (count v : Nat) : (littleEndian count v).length = count := by
  induction count generalizing v with
  | zero => rfl
  | succ count ih => rw [littleEndian, List.length_cons, ih]

/-- Reading gives back what was written. -/
theorem readLE_littleEndian {count v position : Nat} {bytes : List (BitVec 8)}
    (hv : v < 256 ^ count) (h : littleEndian count v <+: bytes.drop position) :
    readLE count bytes position = some v := by
  induction count generalizing v position with
  | zero =>
    rw [readLE]
    simp only [Nat.pow_zero, Nat.lt_one_iff] at hv
    rw [hv]
  | succ count ih =>
    rw [littleEndian] at h
    have hlt : position < bytes.length := by
      by_contra hge
      rw [List.drop_eq_nil_of_le (by omega), List.prefix_nil] at h
      cases h
    rw [List.drop_eq_getElem_cons hlt, List.cons_prefix_cons] at h
    have hrest : v / 256 < 256 ^ count := by
      rw [Nat.pow_succ] at hv
      omega
    rw [readLE, List.getElem?_eq_getElem hlt, ih hrest h.2, ← h.1]
    simp only [BitVec.toNat_ofNat]
    rw [Nat.mod_add_div]

theorem readLE_inside {count position v : Nat} {bytes : List (BitVec 8)}
    (h : readLE count bytes position = some v) (hcount : 0 < count) :
    position + count ≤ bytes.length := by
  induction count generalizing position v with
  | zero => omega
  | succ count ih =>
    rw [readLE] at h
    split at h
    · rename_i b rest hget hrest
      have hlt := (List.getElem?_eq_some_iff.mp hget).1
      rcases Nat.eq_zero_or_pos count with rfl | hpos
      · omega
      · have := ih hrest hpos
        omega
    · cases h

/-- Inside the bytes there is something to read. -/
theorem readLE_some {count position : Nat} {bytes : List (BitVec 8)}
    (h : position + count ≤ bytes.length) :
    ∃ v, readLE count bytes position = some v ∧ v < 256 ^ count := by
  induction count generalizing position with
  | zero => exact ⟨0, rfl, Nat.one_pos⟩
  | succ count ih =>
    have hlt : position < bytes.length := by omega
    obtain ⟨v, hv, hbound⟩ := @ih (position + 1) (by omega)
    refine ⟨_, by rw [readLE, List.getElem?_eq_getElem hlt, hv], ?_⟩
    have hbyte := (bytes[position]).isLt
    rw [Nat.pow_succ]
    omega

/-- Reading depends on the bytes that are read. -/
theorem readLE_congr {count position position' : Nat} {bytes bytes' : List (BitVec 8)}
    (h : ∀ k < count, bytes[position + k]? = bytes'[position' + k]?) :
    readLE count bytes position = readLE count bytes' position' := by
  induction count generalizing position position' with
  | zero => rfl
  | succ count ih =>
    have hrest : readLE count bytes (position + 1) = readLE count bytes' (position' + 1) :=
      ih fun k hk ↦ by
        have := h (k + 1) (by omega)
        rwa [Nat.add_comm k 1, ← Nat.add_assoc, ← Nat.add_assoc] at this
    have hfirst := h 0 (by omega)
    rw [Nat.add_zero, Nat.add_zero] at hfirst
    rw [readLE, readLE, hfirst, hrest]

theorem readLE_append {count position : Nat} {bytes : List (BitVec 8)} (more : List (BitVec 8))
    (h : position + count ≤ bytes.length) :
    readLE count (bytes ++ more) position = readLE count bytes position :=
  readLE_congr fun k hk ↦ List.getElem?_append_left (by omega)

theorem readAt_append {count position : Nat} {bytes : List (BitVec 8)} (more : List (BitVec 8))
    (h : position + count ≤ bytes.length) :
    readAt count (bytes ++ more) position = readAt count bytes position := by
  rw [readAt, readAt, if_pos h, if_pos (by rw [List.length_append]; omega),
    List.drop_append_of_le_length (by omega), List.take_append_of_le_length]
  rw [List.length_drop]
  omega

/-! ## Bit fields -/

/-- The bits of a number from `lo` on. -/
def field (lo width v : Nat) : Nat := v / 2 ^ lo % 2 ^ width

/-- A shift and a mask pick a field. -/
theorem shiftRight_and (lo width v : Nat) : v >>> lo &&& (2 ^ width - 1) = field lo width v := by
  rw [Nat.and_two_pow_sub_one_eq_mod, Nat.shiftRight_eq_div_pow, field]

/-- What lies above a field does not matter. -/
theorem field_add_mul {lo width high : Nat} (h : lo + width ≤ high) (low k : Nat) :
    field lo width (low + k * 2 ^ high) = field lo width low := by
  obtain ⟨d, rfl⟩ := Nat.exists_eq_add_of_le h
  have hsplit : k * 2 ^ (lo + width + d) = 2 ^ lo * (2 ^ width * (k * 2 ^ d)) := by
    rw [Nat.pow_add, Nat.pow_add]
    ring
  rw [field, field, hsplit, Nat.add_mul_div_left _ _ (Nat.two_pow_pos lo),
    Nat.add_mul_mod_self_left]

/-- A number below a bit does not have it. -/
theorem and_two_pow_of_lt {v width : Nat} (hv : v < 2 ^ width) : v &&& 2 ^ width = 0 := by
  rw [Nat.and_two_pow, Nat.testBit_lt_two_pow hv]
  simp

/-- With the bit added it has it, and without the bit it is what it was. -/
theorem and_two_pow_add {v width : Nat} (hv : v < 2 ^ width) :
    (2 ^ width + v) &&& 2 ^ width ≠ 0 ∧ (2 ^ width + v) &&& (2 ^ width - 1) = v := by
  constructor
  · rw [Nat.and_two_pow, Nat.testBit_two_pow_add_eq, Nat.testBit_lt_two_pow hv]
    simp
  · rw [Nat.and_two_pow_sub_one_eq_mod, Nat.add_mod_left, Nat.mod_eq_of_lt hv]

/-- Flipping a bit above the number sets it. -/
theorem xor_two_pow_of_lt {v width : Nat} (hv : v < 2 ^ width) :
    v ^^^ 2 ^ width = v + 2 ^ width := by
  have hadd : v + 2 ^ width = 2 ^ width ||| v := by
    have := Nat.two_pow_add_eq_or_of_lt hv 1
    rw [Nat.mul_one] at this
    omega
  rw [hadd]
  refine Nat.eq_of_testBit_eq fun i ↦ ?_
  rw [Nat.testBit_xor, Nat.testBit_or, Nat.testBit_two_pow]
  by_cases hi : width = i
  · subst hi
    rw [Nat.testBit_lt_two_pow hv]
    simp
  · simp [hi]

/-- Flipping the highest bit of a number that has it clears it. -/
theorem xor_two_pow_of_ge {v width : Nat} (hlow : 2 ^ width ≤ v) (hv : v < 2 ^ (width + 1)) :
    v ^^^ 2 ^ width = v - 2 ^ width := by
  have hlt : v - 2 ^ width < 2 ^ width := by
    rw [Nat.pow_succ] at hv
    omega
  have hflip := xor_two_pow_of_lt hlt
  rw [Nat.sub_add_cancel hlow] at hflip
  rw [← hflip, Nat.xor_assoc, Nat.xor_self, Nat.xor_zero, hflip, Nat.sub_eq_iff_eq_add hlow]
  omega

end LittleEndian
