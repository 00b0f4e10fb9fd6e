import HookKit.Lib.Checked

/-!
# Big-endian numbers

* `readBE count bytes position` — the number that stands at a position with its highest byte first,
  if it lies inside the bytes.
* `readBE_add` — a number read in two halves.
-/

set_option autoImplicit false

namespace BigEndian

open LittleEndian

/-- Read a number; `none` outside the bytes. -/
def readBE : Nat → List (BitVec 8) → Nat → Option Nat
  | 0, _, _ => some 0
  | count + 1, bytes, position =>
    match bytes[position]?, readBE count bytes (position + 1) with
    | some b, some rest => some (b.toNat * 256 ^ count + rest)
    | _, _ => none

/-- Inside the bytes there is something to read. -/
theorem readBE_some {count position : Nat} {bytes : List (BitVec 8)}
    (h : position + count ≤ bytes.length) :
    ∃ v, readBE count bytes position = some v ∧ v < 256 ^ count := by
  induction count generalizing position with
  | zero => exact ⟨0, rfl, Nat.one_pos⟩
  | succ count ih =>
    have hlt : position < bytes.length := by omega
    obtain ⟨v, hv, hbound⟩ := @ih (position + 1) (by omega)
    refine ⟨_, by rw [readBE, List.getElem?_eq_getElem hlt, hv], ?_⟩
    have hbyte : (bytes[position]).toNat + 1 ≤ 256 := (bytes[position]).isLt
    have hscaled := Nat.mul_le_mul_right (256 ^ count) hbyte
    rw [Nat.add_mul, Nat.one_mul] at hscaled
    rw [Nat.pow_succ]
    omega

theorem readBE_inside {count position v : Nat} {bytes : List (BitVec 8)}
    (h : readBE count bytes position = some v) (hcount : 0 < count) :
    position + count ≤ bytes.length := by
  induction count generalizing position v with
  | zero => omega
  | succ count ih =>
    rw [readBE] at h
    split at h
    · rename_i b rest hget hrest
      have hlt := (List.getElem?_eq_some_iff.mp hget).1
      rcases Nat.eq_zero_or_pos count with rfl | hpos
      · omega
      · have := ih hrest hpos
        omega
    · cases h

/-- The first byte is the highest one of the one reading and the lowest one of the other. -/
theorem readBE_head {count count' position v w : Nat} {bytes : List (BitVec 8)}
    (hv : readBE (count + 1) bytes position = some v)
    (hw : readLE (count' + 1) bytes position = some w) : v / 256 ^ count = w % 256 := by
  rw [readBE] at hv
  rw [readLE] at hw
  split at hv
  · rename_i b rest hget hrest
    rw [hget] at hw
    split at hw
    · rename_i b' rest' hget' hrest'
      cases hget'
      cases hv
      cases hw
      have hlt : rest < 256 ^ count := by
        rcases Nat.eq_zero_or_pos count with rfl | hpos
        · cases hrest
          exact Nat.one_pos
        · obtain ⟨v, hv, hbound⟩ := readBE_some (readBE_inside hrest hpos)
          cases hv.symm.trans hrest
          exact hbound
      have hbyte := b.isLt
      rw [Nat.mul_comm, Nat.mul_add_div (Nat.pow_pos (by decide)), Nat.div_eq_of_lt hlt]
      omega
    · cases hw
  · cases hv

/-- A number in two halves, the higher one first. -/
theorem readBE_add (high low position : Nat) (bytes : List (BitVec 8)) :
    readBE (high + low) bytes position = (readBE high bytes position).bind fun h ↦
      (readBE low bytes (position + high)).map (h * 256 ^ low + ·) := by
  induction high generalizing position with
  | zero =>
    rw [Nat.zero_add, readBE, Nat.add_zero]
    cases readBE low bytes position with
    | none => rfl
    | some l => simp
  | succ high ih =>
    rw [show high + 1 + low = high + low + 1 by omega, readBE, readBE, ih (position + 1),
      show position + 1 + high = position + (high + 1) by omega]
    cases bytes[position]? with
    | none => rfl
    | some b =>
      cases readBE high bytes (position + 1) with
      | none => rfl
      | some h =>
        cases readBE low bytes (position + (high + 1)) with
        | none => rfl
        | some l =>
          simp only [Option.bind_some, Option.map_some, Option.some.injEq]
          rw [Nat.pow_add, Nat.add_mul, Nat.mul_assoc, Nat.add_assoc]

end BigEndian

namespace Checked

open BigEndian

/-- Reading a big-endian number inside the bytes. -/
theorem Safe.readBE {count position : Nat} {bytes : List (BitVec 8)}
    (h : position + count ≤ bytes.length) : Safe (readBE count bytes position) (· < 256 ^ count) :=
  readBE_some h

end Checked
