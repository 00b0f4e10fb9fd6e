import Mathlib.Data.List.Basic
import Mathlib.Data.BitVec

/-!
# LEB128 numbers

A number as bytes of seven bits each, the lowest first, every byte but the last with its high bit
set.  Padding is allowed, so that a number has many encodings.

* `Encodes bytes v` — the bytes are an encoding of `v`.
* `encode v` — the shortest one, `encode_encodes`; ten bytes are enough for 64 bits,
  `length_encode_le`.
* `At buffer size offset v next` — an encoding of the 64-bit number `v` stands in the buffer from
  `offset` up to `next`, inside its first `size` bytes.
* `or_shift` — the step of every decoder that collects the bits from below.
-/

set_option autoImplicit false

namespace Leb128

/-- The seven bits of a byte. -/
def chunk (b : BitVec 8) : Nat := b.toNat % 128

/-- Whether another byte follows. -/
def continues (b : BitVec 8) : Bool := decide (128 ≤ b.toNat)

theorem chunk_lt (b : BitVec 8) : chunk b < 128 := Nat.mod_lt _ (by decide)

/-- The bytes are an encoding of the number. -/
inductive Encodes : List (BitVec 8) → Nat → Prop where
  | last {b : BitVec 8} (h : continues b = false) : Encodes [b] (chunk b)
  | more {b : BitVec 8} {bytes : List (BitVec 8)} {v : Nat} (h : continues b = true)
      (rest : Encodes bytes v) : Encodes (b :: bytes) (chunk b + 128 * v)

theorem Encodes.ne_nil {bytes : List (BitVec 8)} {v : Nat} (h : Encodes bytes v) : bytes ≠ [] := by
  cases h <;> exact List.cons_ne_nil _ _

theorem Encodes.length_pos {bytes : List (BitVec 8)} {v : Nat} (h : Encodes bytes v) :
    0 < bytes.length := List.length_pos_iff.mpr h.ne_nil

theorem cons_prefix_drop {α : Type*} {b : α} {bytes buffer : List α} {offset : Nat} :
    b :: bytes <+: buffer.drop offset ↔
      buffer[offset]? = some b ∧ bytes <+: buffer.drop (offset + 1) := by
  rcases Nat.lt_or_ge offset buffer.length with hlt | hge
  · rw [List.drop_eq_getElem_cons hlt, List.cons_prefix_cons, List.getElem?_eq_getElem hlt,
      Option.some.injEq, eq_comm]
  · rw [List.drop_eq_nil_of_le hge, List.getElem?_eq_none hge]
    simp

theorem encodes_cons {b : BitVec 8} {bytes : List (BitVec 8)} {v : Nat} :
    Encodes (b :: bytes) v ↔ (continues b = false ∧ bytes = [] ∧ v = chunk b) ∨
      (continues b = true ∧ ∃ w, Encodes bytes w ∧ v = chunk b + 128 * w) := by
  constructor
  · intro h
    cases h with
    | last h => exact .inl ⟨h, rfl, rfl⟩
    | more h rest => exact .inr ⟨h, _, rest, rfl⟩
  · rintro (⟨h, rfl, rfl⟩ | ⟨h, w, rest, rfl⟩)
    · exact .last h
    · exact .more h rest

/-- An encoding of the 64-bit number `v` stands in the buffer at `offset`. -/
def At (buffer : List (BitVec 8)) (size offset v next : Nat) : Prop :=
  ∃ bytes, Encodes bytes v ∧ bytes <+: buffer.drop offset ∧ next = offset + bytes.length ∧
    next ≤ size ∧ bytes.length ≤ 10 ∧ v < 2 ^ 64

theorem At.lt_next {buffer : List (BitVec 8)} {size offset v next : Nat}
    (h : At buffer size offset v next) : offset < next := by
  obtain ⟨bytes, hencodes, -, rfl, -⟩ := h
  have := hencodes.length_pos
  omega

theorem At.next_le {buffer : List (BitVec 8)} {size offset v next : Nat}
    (h : At buffer size offset v next) : next ≤ size := by
  obtain ⟨-, -, -, -, hle, -⟩ := h
  exact hle

/-! ## The shortest encoding -/

/-- The number without padding. -/
def encode (v : Nat) : List (BitVec 8) :=
  if v < 128 then [BitVec.ofNat 8 v] else BitVec.ofNat 8 (128 + v % 128) :: encode (v / 128)
termination_by v
decreasing_by omega

theorem encode_encodes (v : Nat) : Encodes (encode v) v := by
  fun_induction encode v with
  | case1 v hsmall =>
    have hvalue : (BitVec.ofNat 8 v).toNat = v := by
      rw [BitVec.toNat_ofNat]
      omega
    have hchunk : chunk (BitVec.ofNat 8 v) = v := by
      rw [chunk, hvalue]
      omega
    have hlast := @Encodes.last (BitVec.ofNat 8 v) (decide_eq_false (by omega))
    rwa [hchunk] at hlast
  | case2 v hlarge ih =>
    have hvalue : (BitVec.ofNat 8 (128 + v % 128)).toNat = 128 + v % 128 := by
      rw [BitVec.toNat_ofNat]
      omega
    have hsum : chunk (BitVec.ofNat 8 (128 + v % 128)) + 128 * (v / 128) = v := by
      rw [chunk, hvalue]
      omega
    have hmore := @Encodes.more (BitVec.ofNat 8 (128 + v % 128)) _ _
      (decide_eq_true (by omega)) ih
    rwa [hsum] at hmore

theorem length_encode_le {v k : Nat} (h : v < 128 ^ (k + 1)) : (encode v).length ≤ k + 1 := by
  induction k generalizing v with
  | zero => rw [encode, if_pos (by omega)]; rfl
  | succ k ih =>
    rw [encode]
    split
    · exact Nat.succ_le_succ (Nat.zero_le _)
    · refine Nat.succ_le_succ (ih ?_)
      rw [Nat.pow_succ] at h
      omega

/-- The encoding of a 64-bit number, between other bytes. -/
theorem at_encode (before after : List (BitVec 8)) {v : Nat} (h : v < 2 ^ 64) :
    At (before ++ encode v ++ after) (before ++ encode v ++ after).length before.length v
      (before.length + (encode v).length) := by
  refine ⟨encode v, encode_encodes v, ⟨after, ?_⟩, rfl, ?_, length_encode_le ?_, h⟩
  · rw [List.append_assoc, List.drop_left]
  · rw [List.length_append, List.length_append]
    omega
  · exact Nat.lt_of_lt_of_le h (by decide)

/-! ## Taking a byte apart -/

/-- Bits above a number are added to it. -/
theorem or_shift {acc shift c : Nat} (h : acc < 2 ^ shift) :
    acc ||| c <<< shift = acc + c * 2 ^ shift := by
  rw [Nat.or_comm, ← Nat.shiftLeft_add_eq_or_of_lt h, Nat.shiftLeft_eq, Nat.add_comm]

/-- The masks a decoder takes a byte apart with. -/
theorem toNat_and_chunk (b : BitVec 8) : (b &&& 0x7f#8).toNat = chunk b := by
  rw [BitVec.toNat_and]
  exact Nat.and_two_pow_sub_one_eq_mod b.toNat 7

theorem and_continues (b : BitVec 8) : b &&& 0x80#8 = 0#8 ↔ continues b = false := by
  revert b
  decide

end Leb128
