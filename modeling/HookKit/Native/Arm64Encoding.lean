import HookKit.Native.Arm64Cpu

/-!
# What the relocator's words mean

The relocator works with masks and shifts, the processor with instruction fields.  This file says
once how the two correspond.

* `signExtend_eq` — the C code's unsigned sign extension is sign extension.
* `setWidth_field` — a shifted and masked immediate is the field at that place.
* `decode_ldrLit64`, `decode_b_*`, `decode_scratchLoad`, … — the words the relocator writes, and
  `decode_setImm19`, `decode_setImm14` for the tests it retargets.
* `Text.Holds.fetch`, `Text.Holds.readQuad` — reading an instruction or a literal from a text.
-/

set_option autoImplicit false

namespace HookKit
namespace Arm64

open Block

/-! ## Sign extension -/

theorem getLsbD_lowMask {bits : Nat} (h : bits < 64) (i : Nat) :
    ((1#64 <<< bits) - 1#64).getLsbD i = decide (i < bits) := by
  have hmask : (1#64 <<< bits) - 1#64 = BitVec.ofNat 64 (2 ^ bits - 1) := by
    apply BitVec.eq_of_toNat_eq
    have h2 : 2 ^ bits < 2 ^ 64 := Nat.pow_lt_pow_right (by omega) h
    have h1 : 1 ≤ 2 ^ bits := Nat.one_le_two_pow
    simp [BitVec.toNat_sub, Nat.shiftLeft_eq]
    omega
  rw [hmask, BitVec.getLsbD_ofNat, Nat.testBit_two_pow_sub_one]
  simp; omega

theorem getLsbD_signBit {k : Nat} (h : k < 64) (i : Nat) :
    (1#64 <<< k).getLsbD i = decide (i = k) := by
  by_cases hi : i = k
  · subst hi; simp [h]
  · rw [BitVec.getLsbD_shiftLeft, BitVec.getLsbD_one]
    simp [hi]; omega

theorem signBit_add_signBit {bits : Nat} (h0 : 0 < bits) (h : bits < 64) :
    1#64 <<< bits = 1#64 <<< (bits - 1) + 1#64 <<< (bits - 1) := by
  obtain ⟨k, rfl⟩ : ∃ k, bits = k + 1 := ⟨bits - 1, by omega⟩
  apply BitVec.eq_of_toNat_eq
  have hk : 2 ^ (k + 1) < 2 ^ 64 := Nat.pow_lt_pow_right (by omega) h
  rw [BitVec.toNat_add, BitVec.toNat_shiftLeft, BitVec.toNat_shiftLeft, BitVec.toNat_ofNat,
    Nat.shiftLeft_eq, Nat.shiftLeft_eq, Nat.add_sub_cancel]
  omega

theorem xor_eq_add_of_and_eq_zero {w : Nat} {x y : BitVec w} (h : x &&& y = 0#w) :
    x ^^^ y = x + y := by
  rw [BitVec.add_eq_or_of_and_eq_zero x y h]
  apply BitVec.eq_of_getLsbD_eq
  intro i _
  have hi := congrArg (·.getLsbD i) h
  simp only [BitVec.getLsbD_and, BitVec.getLsbD_zero] at hi
  simp only [BitVec.getLsbD_xor, BitVec.getLsbD_or]
  revert hi
  cases x.getLsbD i <;> cases y.getLsbD i <;> simp

/-- **The C code's sign extension.**  Flipping the sign bit and subtracting it again, and then
putting the high bits back by hand, is sign extension of the low `bits` bits. -/
theorem signExtend_eq (value : BitVec 64) {bits : Nat} (h0 : 0 < bits) (h : bits < 64) :
    signExtend value bits = (value.setWidth bits).signExtend 64 := by
  simp only [signExtend, if_neg (show ¬ 64 ≤ bits by omega)]
  have htwice := signBit_add_signBit h0 h
  have hmaskEq : (1#64 <<< bits) - 1#64 + 1#64 = 1#64 <<< bits := BitVec.sub_add_cancel _ _
  have hmask := getLsbD_lowMask h
  have hsign := getLsbD_signBit (show bits - 1 < 64 by omega)
  generalize (1#64 <<< bits) - 1#64 = mask at *
  generalize 1#64 <<< (bits - 1) = sign at *
  generalize hv : value &&& mask = v
  have hvi : ∀ i, v.getLsbD i = (value.getLsbD i && decide (i < bits)) := by
    intro i; rw [← hv, BitVec.getLsbD_and, hmask]
  have hres : ∀ i, i < 64 → ((value.setWidth bits).signExtend 64).getLsbD i =
      if i < bits then value.getLsbD i else value.getLsbD (bits - 1) := by
    intro i hi
    rw [BitVec.getLsbD_signExtend, BitVec.msb_setWidth, BitVec.getLsbD_setWidth]
    by_cases hi' : i < bits <;> simp [hi, hi', h0]
  cases hb : value.getLsbD (bits - 1) with
  | false =>
    -- the flip adds the sign bit, and the subtraction takes it away
    have hdis : v &&& sign = 0#64 := by
      apply BitVec.eq_of_getLsbD_eq
      intro i _
      rw [BitVec.getLsbD_and, hvi, hsign]
      by_cases hi : i = bits - 1
      · subst hi; simp [hb]
      · simp [hi]
    rw [xor_eq_add_of_and_eq_zero hdis, BitVec.add_sub_cancel, hdis, if_neg (by simp)]
    apply BitVec.eq_of_getLsbD_eq
    intro i hi
    rw [hres i hi, BitVec.getLsbD_and, hvi, hmask, hb]
    by_cases hi' : i < bits <;> simp [hi']
  | true =>
    -- the flip takes the sign bit away, and the subtraction borrows through all high bits
    have hdis : (v ^^^ sign) &&& sign = 0#64 := by
      apply BitVec.eq_of_getLsbD_eq
      intro i _
      rw [BitVec.getLsbD_and, BitVec.getLsbD_xor, hvi, hsign]
      by_cases hi : i = bits - 1
      · subst hi; simp [hb, show bits - 1 < bits by omega]
      · simp [hi]
    have hflip : v ^^^ sign = v - sign := by
      have hback := xor_eq_add_of_and_eq_zero hdis
      rw [BitVec.xor_assoc, BitVec.xor_self, BitVec.xor_zero] at hback
      calc v ^^^ sign = (v ^^^ sign) + sign - sign := (BitVec.add_sub_cancel _ _).symm
        _ = v - sign := by rw [← hback]
    have hhigh : v &&& ~~~mask = 0#64 := by
      apply BitVec.eq_of_getLsbD_eq
      intro i hi
      rw [BitVec.getLsbD_and, BitVec.getLsbD_not, hvi, hmask]
      by_cases hi' : i < bits <;> simp [hi']
    have hmag : (v ^^^ sign) - sign = v ||| ~~~mask := by
      rw [hflip, ← BitVec.add_eq_or_of_and_eq_zero _ _ hhigh, BitVec.not_eq_neg_add]
      have hsum : mask + 1#64 = sign + sign := by rw [hmaskEq, htwice]
      bv_omega
    have hset : (v ||| ~~~mask) &&& sign ≠ 0#64 := by
      intro hz
      have := congrArg (·.getLsbD (bits - 1)) hz
      simp [hvi, hsign, hb, show bits - 1 < bits by omega] at this
    rw [hmag, if_pos hset]
    apply BitVec.eq_of_getLsbD_eq
    intro i hi
    rw [hres i hi, BitVec.getLsbD_or, BitVec.getLsbD_or, BitVec.getLsbD_not, hvi, hmask, hb]
    by_cases hi' : i < bits <;> simp [hi', hi]

/-! ## Fields -/

theorem and_register (w : Word) : w &&& 31#32 = (rtOf w).setWidth 32 := by
  apply BitVec.eq_of_toNat_eq
  simp only [BitVec.toNat_and, BitVec.toNat_ofNat, rtOf, BitVec.toNat_setWidth,
    BitVec.extractLsb'_toNat]
  rw [show 31 % 2 ^ 32 = 2 ^ 5 - 1 by rfl, Nat.and_two_pow_sub_one_eq_mod]
  simp only [Nat.shiftRight_zero]
  omega

/-- An immediate the C code shifts down and masks is the instruction's field. -/
theorem setWidth_field (w : Word) (lo : Nat) {len : Nat} (h : len ≤ 32) :
    (((w >>> lo) &&& BitVec.ofNat 32 (2 ^ len - 1)).setWidth 64).setWidth len =
      w.extractLsb' lo len := by
  apply BitVec.eq_of_toNat_eq
  have h2 : 2 ^ len ≤ 2 ^ 32 := Nat.pow_le_pow_right (by omega) h
  have h3 : 2 ^ len - 1 < 2 ^ 32 := by have := Nat.one_le_two_pow (n := len); omega
  have hlt : (w.toNat >>> lo) % 2 ^ len < 2 ^ len := Nat.mod_lt _ (Nat.two_pow_pos _)
  simp only [BitVec.toNat_setWidth, BitVec.toNat_and, BitVec.toNat_ushiftRight, BitVec.toNat_ofNat,
    BitVec.extractLsb'_toNat, Nat.mod_eq_of_lt h3, Nat.and_two_pow_sub_one_eq_mod]
  rw [Nat.mod_eq_of_lt (show (w.toNat >>> lo) % 2 ^ len < 2 ^ 64 by omega), Nat.mod_mod]

/-- The two halves of an ADR/ADRP immediate. -/
theorem setWidth_adrField (w : Word) :
    ((((w >>> 5) &&& 0x7FFFF#32).setWidth 64 <<< 2) |||
      ((w >>> 29) &&& 3#32).setWidth 64 : BitVec 64).setWidth 21 =
      w.extractLsb' 5 19 ++ w.extractLsb' 29 2 := by
  apply BitVec.eq_of_getLsbD_eq
  intro i hi
  have h19 : ∀ i, (0x7FFFF#32).getLsbD i = decide (i < 19) := by
    intro i
    rw [BitVec.getLsbD_ofNat, show 0x7FFFF = 2 ^ 19 - 1 by rfl, Nat.testBit_two_pow_sub_one]
    simp; omega
  have h2 : (3#32).getLsbD i = decide (i < 2) := by
    rw [BitVec.getLsbD_ofNat, show 3 = 2 ^ 2 - 1 by rfl, Nat.testBit_two_pow_sub_one]
    simp; omega
  simp only [BitVec.getLsbD_setWidth, BitVec.getLsbD_or, BitVec.getLsbD_shiftLeft,
    BitVec.getLsbD_and, BitVec.getLsbD_ushiftRight, BitVec.getLsbD_append,
    BitVec.getLsbD_extractLsb', h19, h2]
  by_cases h : i < 2
  · simp [h, hi, show i < 64 by omega]
  · simp [h, hi, show i < 64 by omega, show i - 2 < 64 by omega, Bool.and_comm]

/-- The target of a PC-relative branch or literal, as the C code computes it. -/
theorem branchTarget_field (w : Word) (pc : Addr) (lo len : Nat) (h0 : 0 < len) (h : len ≤ 32) :
    branchTarget pc
        (signExtend (((w >>> lo) &&& BitVec.ofNat 32 (2 ^ len - 1)).setWidth 64) len) =
      offsetFrom pc (w.extractLsb' lo len) := by
  rw [branchTarget, offsetFrom, signExtend_eq _ h0 (by omega), setWidth_field w lo h]

/-- `opc`, as the relocator and as the decoder read it. -/
theorem opc_eq (w : Word) (k : BitVec 2) :
    w >>> 30 = k.setWidth 32 ↔ w &&& 0xC0000000#32 = k.setWidth 32 <<< 30 := by
  have h1 : w >>> 30 = (w.extractLsb' 30 2).setWidth 32 := by
    apply BitVec.eq_of_toNat_eq
    simp; omega
  have h2 : w &&& 0xC0000000#32 = (w.extractLsb' 30 2).setWidth 32 <<< 30 := by
    rw [← h1]
    apply BitVec.eq_of_getLsbD_eq
    intro i hi
    have hm : (0xC0000000#32).getLsbD i = decide (30 ≤ i) := by
      revert i; decide
    rw [BitVec.getLsbD_and, BitVec.getLsbD_shiftLeft, BitVec.getLsbD_ushiftRight, hm]
    by_cases h : 30 ≤ i
    · simp [h, hi]
    · simp [h]
  rw [h1, h2]
  generalize w.extractLsb' 30 2 = b
  revert b k; decide

/-- `V`, as the relocator and as the decoder read it. -/
theorem v_eq (w : Word) : (w >>> 26) &&& 1#32 = 0#32 ↔ w &&& 0x04000000#32 = 0#32 := by
  have hv : (w >>> 26) &&& 1#32 = (w.extractLsb' 26 1).setWidth 32 := by
    apply BitVec.eq_of_toNat_eq
    simp only [BitVec.toNat_and, BitVec.toNat_ushiftRight, BitVec.toNat_setWidth,
      BitVec.extractLsb'_toNat, BitVec.toNat_ofNat]
    rw [show 1 % 2 ^ 32 = 2 ^ 1 - 1 by rfl, Nat.and_two_pow_sub_one_eq_mod]
    omega
  have hm : w &&& 0x04000000#32 = (w.extractLsb' 26 1).setWidth 32 <<< 26 := by
    rw [← hv]
    apply BitVec.eq_of_getLsbD_eq
    intro i hi
    have h1 : (0x04000000#32).getLsbD i = decide (i = 26) := by revert i; decide
    rw [BitVec.getLsbD_and, BitVec.getLsbD_shiftLeft, BitVec.getLsbD_and,
      BitVec.getLsbD_ushiftRight, h1, BitVec.getLsbD_one]
    by_cases h : i = 26
    · simp [h]
    · simp [h]; omega
  rw [hv, hm]
  generalize w.extractLsb' 26 1 = b
  revert b; decide

/-- What a coarser mask shows follows from what a finer one shows. -/
theorem and_of_and {w m c m' : Word} (h : w &&& m = c) (hm : m &&& m' = m') :
    w &&& m' = c &&& m' := by
  rw [← h, BitVec.and_assoc, hm]

/-- A word of the B/BL class with bit 31 set is a BL. -/
theorem isCall_of_link {w : Word} (hclass : w &&& 0x7C000000#32 = 0x14000000#32)
    (hlink : w &&& 0x80000000#32 ≠ 0#32) : isCall w = true := by
  have hm : ∀ i, i < 32 → (0x80000000#32).getLsbD i = decide (i = 31) := by decide
  have hbit : w &&& 0x80000000#32 = 0x80000000#32 := by
    apply BitVec.eq_of_getLsbD_eq
    intro i hi
    rw [BitVec.getLsbD_and, hm i hi]
    by_cases h31 : i = 31
    · subst h31
      by_contra hzero
      apply hlink
      apply BitVec.eq_of_getLsbD_eq
      intro j hj
      rw [BitVec.getLsbD_and, hm j hj, BitVec.getLsbD_zero]
      by_cases hj31 : j = 31
      · subst hj31; simpa using hzero
      · simp [hj31]
    · simp [h31]
  have hsplit : w &&& 0xFC000000#32 = (w &&& 0x80000000#32) ||| (w &&& 0x7C000000#32) := by
    rw [← BitVec.and_or_distrib_left]; rfl
  simp [isCall, hsplit, hbit, hclass]

/-! ## The words the relocator writes -/

theorem decode_ldrLit64 (r : Reg) :
    decode (a64LdrLit64 (r.setWidth 32) 8) = .ldrLit .x r 2#19 := by
  revert r; decide

theorem decode_ldrLit64_call : decode (a64LdrLit64 scratchJump 12) = .ldrLit .x 16#5 3#19 := by
  decide

theorem decode_b_constant : decode (a64B 12) = .b 3#26 := by decide

theorem decode_b_conditional : decode (a64B 20) = .b 5#26 := by decide

theorem decode_br (r : Reg) (h : r = 16#5 ∨ r = 17#5) :
    decode (a64Br (r.setWidth 32)) = .brScratch r := by
  rcases h with rfl | rfl <;> decide

theorem decode_blr : decode (a64Blr scratchJump) = .blrScratch := by decide

theorem decode_nop : decode a64Nop = .nop := by decide

/-- The load word for a kind, with its base register and destination still to be filled in. -/
def LoadKind.word : LoadKind → Word
  | .w => 0xB9400000#32
  | .x => 0xF9400000#32
  | .sw => 0xB9800000#32
  | .s => 0xBD400000#32
  | .d => 0xFD400000#32
  | .q => 0x3DC00000#32

theorem decode_scratchLoad (kind : LoadKind) (r : Reg) :
    decode (kind.word ||| (scratchLoad <<< 5) ||| r.setWidth 32) = .ldrScratch kind r := by
  cases kind <;> revert r <;> decide

/-- The load chosen for a literal is the one the decoder takes the literal for. -/
theorem literalLoad_decode {w load : Word}
    (h : literalLoad (w >>> 30) ((w >>> 26) &&& 1#32) = some load) :
    ∃ kind : LoadKind, load = kind.word ∧ decodeLiteral w = .ldrLit kind (rtOf w) (imm19 w) := by
  have h0 := opc_eq w 0#2
  have h1 := opc_eq w 1#2
  have h2 := opc_eq w 2#2
  simp only [BitVec.reduceSetWidth] at h0 h1 h2
  simp only [literalLoad, v_eq, h0, h1, h2] at h
  simp only [decodeLiteral]
  split_ifs at h with hv ha hb hc ha hb hc <;> cases h
  · exact ⟨.w, rfl, by simp [hv, ha]⟩
  · exact ⟨.x, rfl, by simp [hv, hb]⟩
  · exact ⟨.sw, rfl, by simp [hv, hc]⟩
  · exact ⟨.s, rfl, by simp [hv, ha]⟩
  · exact ⟨.d, rfl, by simp [hv, hb]⟩
  · exact ⟨.q, rfl, by simp [hv, hc]⟩

theorem decodeLiteral_prfm {w : Word} (hopc : w >>> 30 = 3#32) (hv : (w >>> 26) &&& 1#32 = 0#32) :
    decodeLiteral w = .prfm := by
  have h3 : w &&& 0xC0000000#32 = 0xC0000000#32 := (opc_eq w 3#2).mp hopc
  simp [decodeLiteral, (v_eq w).mp hv, h3]

theorem decodeScratch_cases (w : Word) :
    (∃ r, decodeScratch w = .brScratch r) ∨ decodeScratch w = .blrScratch ∨
      (∃ kind r, decodeScratch w = .ldrScratch kind r) ∨ decodeScratch w = .nop ∨
      decodeScratch w = .other w := by
  generalize hi : decodeScratch w = i
  rw [decodeScratch] at hi
  iterate 10
    split at hi
    · subst hi; simp
  subst hi; simp

/-! ## Retargeted tests -/

theorem and_setImm19 {m : Word} (w : Word) (h : 0x00FFFFE0#32 &&& m = 0#32) :
    a64SetImm19 w 8 &&& m = w &&& m := by
  have hkeep : 0xFF00001F#32 &&& m = m := by
    calc 0xFF00001F#32 &&& m
        = (0xFF00001F#32 &&& m) ||| (0x00FFFFE0#32 &&& m) := by rw [h]; simp
      _ = BitVec.allOnes 32 &&& m := by rw [← BitVec.and_or_distrib_right]; rfl
      _ = m := BitVec.allOnes_and
  have h64 : 64#32 &&& m = 0#32 := by
    calc 64#32 &&& m = 64#32 &&& (0x00FFFFE0#32 &&& m) := by rw [← BitVec.and_assoc]; simp
      _ = 0#32 := by rw [h]; simp
  rw [a64SetImm19]
  simp [BitVec.and_or_distrib_right, BitVec.and_assoc, hkeep, h64]

theorem and_setImm14 {m : Word} (w : Word) (h : 0x0007FFE0#32 &&& m = 0#32) :
    a64SetImm14 w 8 &&& m = w &&& m := by
  have hkeep : 0xFFF8001F#32 &&& m = m := by
    calc 0xFFF8001F#32 &&& m
        = (0xFFF8001F#32 &&& m) ||| (0x0007FFE0#32 &&& m) := by rw [h]; simp
      _ = BitVec.allOnes 32 &&& m := by rw [← BitVec.and_or_distrib_right]; rfl
      _ = m := BitVec.allOnes_and
  have h64 : 64#32 &&& m = 0#32 := by
    calc 64#32 &&& m = 64#32 &&& (0x0007FFE0#32 &&& m) := by rw [← BitVec.and_assoc]; simp
      _ = 0#32 := by rw [h]; simp
  rw [a64SetImm14]
  simp [BitVec.and_or_distrib_right, BitVec.and_assoc, hkeep, h64]

theorem imm19_setImm19 (w : Word) : imm19 (a64SetImm19 w 8) = 2#19 := by
  simp [a64SetImm19, imm19, BitVec.extractLsb'_and, BitVec.extractLsb'_or]

theorem rtOf_setImm19 (w : Word) : rtOf (a64SetImm19 w 8) = rtOf w := by
  simp [a64SetImm19, rtOf, BitVec.extractLsb'_and, BitVec.extractLsb'_or]
  exact BitVec.and_allOnes

theorem cond_setImm19 (w : Word) : (a64SetImm19 w 8).extractLsb' 0 4 = w.extractLsb' 0 4 := by
  simp [a64SetImm19, BitVec.extractLsb'_and, BitVec.extractLsb'_or]
  exact BitVec.and_allOnes

theorem rtOf_setImm14 (w : Word) : rtOf (a64SetImm14 w 8) = rtOf w := by
  simp [a64SetImm14, rtOf, BitVec.extractLsb'_and, BitVec.extractLsb'_or]
  exact BitVec.and_allOnes

theorem testedBit_setImm14 (w : Word) :
    (a64SetImm14 w 8).extractLsb' 31 1 ++ (a64SetImm14 w 8).extractLsb' 19 5 =
      w.extractLsb' 31 1 ++ w.extractLsb' 19 5 := by
  congr 1 <;> simp [a64SetImm14, BitVec.extractLsb'_and, BitVec.extractLsb'_or] <;>
    exact BitVec.and_allOnes

theorem wide_setImm19 (w : Word) : (a64SetImm19 w 8).getLsbD 31 = w.getLsbD 31 := by
  simp [a64SetImm19]

theorem nonzero_setImm19 (w : Word) : (a64SetImm19 w 8).getLsbD 24 = w.getLsbD 24 := by
  simp [a64SetImm19]

theorem nonzero_setImm14 (w : Word) : (a64SetImm14 w 8).getLsbD 24 = w.getLsbD 24 := by
  simp [a64SetImm14]

theorem imm14_setImm14 (w : Word) : (a64SetImm14 w 8).extractLsb' 5 14 = 2#14 := by
  simp [a64SetImm14, BitVec.extractLsb'_and, BitVec.extractLsb'_or]

/-! ## Reading a text -/

theorem byteOf_append (w : Word) :
    byteOf w 3 ++ (byteOf w 2 ++ (byteOf w 1 ++ byteOf w 0)) = w := by
  apply BitVec.eq_of_getLsbD_eq
  intro j hj
  simp only [byteOf, BitVec.getLsbD_append, BitVec.getLsbD_extractLsb']
  by_cases h1 : j < 8
  · simp [h1, show j < 16 by omega, show j < 24 by omega]
  by_cases h2 : j < 16
  · have hj1 : 8 + (j - 8) = j := by omega
    simp [h1, h2, hj1, show j < 24 by omega, show j - 8 < 8 by omega]
  by_cases h3 : j < 24
  · have hj2 : 16 + (j - 16) = j := by omega
    simp [h2, h3, hj2, show j - 16 < 8 by omega]
  · have hj3 : 24 + (j - 24) = j := by omega
    simp [h3, hj3, show j - 24 < 8 by omega]

namespace Text.Holds

variable {text : Text} {base : Addr} {ws ws' : List Word}

theorem left (h : Text.Holds text base (ws ++ ws')) : Text.Holds text base ws := by
  intro i hi k hk
  have hget := h i (by rw [List.length_append]; omega) k hk
  rwa [List.get_eq_getElem, List.getElem_append_left hi] at hget

theorem right (h : Text.Holds text base (ws ++ ws')) :
    Text.Holds text (base + BitVec.ofNat 64 (4 * ws.length)) ws' := by
  intro i hi k hk
  have hget := h (ws.length + i) (by rw [List.length_append]; omega) k hk
  rw [List.get_eq_getElem, List.getElem_append_right (by exact Nat.le_add_right _ _)] at hget
  simp only [Nat.add_sub_cancel_left] at hget
  rw [List.get_eq_getElem, ← hget]
  congr 1
  rw [BitVec.add_assoc, ← BitVec.ofNat_add]
  congr 2
  omega

theorem fetch (h : Text.Holds text base ws) {i : Nat} (hi : i < ws.length) :
    Arm64.fetch text (base + BitVec.ofNat 64 (4 * i)) = some ws[i] := by
  have e1 : base + BitVec.ofNat 64 (4 * i) + 1#64 = base + BitVec.ofNat 64 (4 * i + 1) := by
    bv_omega
  have e2 : base + BitVec.ofNat 64 (4 * i) + 2#64 = base + BitVec.ofNat 64 (4 * i + 2) := by
    bv_omega
  have e3 : base + BitVec.ofNat 64 (4 * i) + 3#64 = base + BitVec.ofNat 64 (4 * i + 3) := by
    bv_omega
  have h0 := h i hi 0 (by omega)
  rw [Nat.add_zero] at h0
  rw [Arm64.fetch, e1, e2, e3, h0, h i hi 1 (by omega), h i hi 2 (by omega), h i hi 3 (by omega)]
  simp only [byteOf_append, List.get_eq_getElem]

theorem readByte (h : Text.Holds text base ws) (s : State) {n : Nat} (hn : n < 4 * ws.length) :
    Arm64.readByte text s (base + BitVec.ofNat 64 n) =
      byteOf (ws.get ⟨n / 4, by omega⟩) (n % 4) := by
  have := h (n / 4) (by omega) (n % 4) (by omega)
  rw [Nat.div_add_mod] at this
  rw [Arm64.readByte, this, Option.getD_some]

end Text.Holds

theorem getLsbD_readBytes (text : Text) (s : State) (a : Addr) {n : Nat} (hn : n ≤ 16) (j : Nat) :
    (readBytes text s a n).getLsbD j =
      (decide (j < 8 * n) &&
        (readByte text s (a + BitVec.ofNat 64 (j / 8))).getLsbD (j % 8)) := by
  induction n with
  | zero => simp [readBytes]
  | succ n ih =>
    rw [readBytes, BitVec.getLsbD_or, ih (by omega), BitVec.getLsbD_shiftLeft,
      BitVec.getLsbD_setWidth]
    by_cases h1 : j < 8 * n
    · simp [h1, show j < 8 * (n + 1) by omega]
    · by_cases h2 : j < 8 * (n + 1)
      · have hd : j / 8 = n := by omega
        have hm : j - 8 * n = j % 8 := by omega
        simp [h1, h2, hd, hm, show j < 128 by omega, show j % 8 < 128 by omega]
      · simp only [h1, h2, decide_false, Bool.false_and, Bool.false_or]
        rw [BitVec.getLsbD_of_ge _ (j - 8 * n) (by omega)]
        simp

/-- The literal behind a veneer or a constant load. -/
theorem Text.Holds.readQuad {text : Text} {base : Addr} {value : BitVec 64}
    (h : Text.Holds text base (quad value)) (s : State) :
    (readBytes text s base 8).setWidth 64 = value := by
  apply BitVec.eq_of_getLsbD_eq
  intro j hj
  have hlen : (quad value).length = 2 := rfl
  rw [BitVec.getLsbD_setWidth, getLsbD_readBytes text s base (by omega),
    h.readByte s (show j / 8 < 4 * (quad value).length by omega)]
  simp only [byteOf, BitVec.getLsbD_extractLsb', quad]
  by_cases h32 : j < 32
  · have hd : j / 8 / 4 = 0 := by omega
    have hm : 8 * (j / 8 % 4) + j % 8 = j := by omega
    simp [hd, hm, hj, h32, show j % 8 < 8 by omega]
  · have hd : j / 8 / 4 = 1 := by omega
    have hm : 32 + (8 * (j / 8 % 4) + j % 8) = j := by omega
    simp [hd, hm, hj, show j % 8 < 8 by omega]
    omega

end Arm64
end HookKit
