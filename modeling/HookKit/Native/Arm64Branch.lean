import HookKit.Native.Arm64Relocation

/-!
# Branches

The part of `src/native/hk_arm64.c` an inline hook is built from besides the relocator: the branch
from one address to another, and the tests for instructions that must not be displaced.

* `branchSize`, `emitBranch` — `hk_arm64_branch_size` and `hk_arm64_emit_branch`.
* `decodeJump` — the address a jump goes to, read off its words.
* `decodeJump_emitBranch` — the emitted words jump where they were meant to, from the address they
  were emitted for.
* `execute` — a number of instructions, one after the other.
* `emitBranch_lands` — executing the emitted words ends at the destination.
-/

set_option autoImplicit false

namespace HookKit
namespace Arm64

open Block

/-! ## The functions -/

/-- `hk_arm64_branch_size`: a B reaches 128 MB in both directions. -/
def branchSize (source dest : Addr) : Nat :=
  let delta := (dest - source).toInt
  if delta ≥ -2 ^ 27 ∧ delta < 2 ^ 27 then 4 else 16

/-- `hk_arm64_emit_branch`. -/
def emitBranch (bufAddr dest : Addr) : List Word :=
  if branchSize bufAddr dest = 4 then [a64B (dest - bufAddr)] else emitAbsJump dest

/-- `hk_arm64_is_terminator`: RET, BR and B. -/
def isTerminator (insn : Word) : Bool :=
  insn &&& 0xFFFFFC1F#32 = 0xD65F0000#32 || insn &&& 0xFFFFFC1F#32 = 0xD61F0000#32 ||
    insn &&& 0xFC000000#32 = 0x14000000#32

/-- `is_authenticated_terminator`: RETAA, RETAB, BRAA, BRAB, BRAAZ and BRABZ. -/
def isAuthenticatedTerminator (insn : Word) : Bool :=
  insn = 0xD65F0BFF#32 || insn = 0xD65F0FFF#32 || insn &&& 0xFFFFFC00#32 = 0xD71F0800#32 ||
    insn &&& 0xFFFFFC00#32 = 0xD71F0C00#32 || insn &&& 0xFFFFFC1F#32 = 0xD61F081F#32 ||
    insn &&& 0xFFFFFC1F#32 = 0xD61F0C1F#32

/-- `hk_arm64_has_early_terminator`. -/
def hasEarlyTerminator (insns : List Word) : Bool :=
  insns.any fun insn ↦ isTerminator insn || isAuthenticatedTerminator insn

/-- `hk_arm64_insn_is_trap`: BRK, HLT and UDF. -/
def insnIsTrap (insn : Word) : Bool :=
  insn &&& 0xFFE0001F#32 = 0xD4200000#32 || insn &&& 0xFFE0001F#32 = 0xD4400000#32 ||
    insn &&& 0xFFFF0000#32 = 0#32

/-! ## Where the words go -/

/-- The address the words at `base` jump to: a B, or a load of the address into a scratch register
and a branch through it. -/
def decodeJump (base : Addr) : List Word → Option Addr
  | [w] =>
    match decode w with
    | .b imm => some (offsetFrom base imm)
    | _ => none
  | [load, branch, low, high] =>
    match decode load, decode branch with
    | .ldrLit .x r imm, .brScratch r' => if r = r' ∧ imm = 2#19 then some (high ++ low) else none
    | _, _ => none
  | _ => none

theorem length_emitAbsJump (dest : Addr) : (emitAbsJump dest).length = 4 := rfl

theorem branchSize_cases (source dest : Addr) :
    branchSize source dest = 4 ∨ branchSize source dest = 16 := by
  rw [branchSize]
  split
  · exact .inl rfl
  · exact .inr rfl

/-- The sizer and the emitter agree. -/
theorem length_emitBranch (source dest : Addr) :
    4 * (emitBranch source dest).length = branchSize source dest := by
  rw [emitBranch]
  rcases branchSize_cases source dest with h | h
  · rw [if_pos h, h]
    rfl
  · rw [if_neg (by rw [h]; decide), h, length_emitAbsJump]

/-- The word offset of a B. -/
theorem and_a64B {m : Word} (delta : BitVec 64) (h : 0x03FFFFFF#32 &&& m = 0#32) :
    a64B delta &&& m = 0x14000000#32 &&& m := by
  have hfield : ((delta.sshiftRight 2) &&& 0x03FFFFFF#64).setWidth 32 =
      (delta.sshiftRight 2).setWidth 32 &&& 0x03FFFFFF#32 := by
    rw [BitVec.setWidth_and]
    rfl
  rw [a64B, hfield, BitVec.and_or_distrib_right, BitVec.and_assoc, h,
    BitVec.and_zero, BitVec.or_zero]

theorem extract_a64B (delta : BitVec 64) :
    (a64B delta).extractLsb' 0 26 = delta.extractLsb' 2 26 := by
  refine BitVec.eq_of_getLsbD_eq fun i hi ↦ ?_
  rw [a64B, BitVec.getLsbD_extractLsb', BitVec.getLsbD_extractLsb', BitVec.getLsbD_or,
    BitVec.getLsbD_setWidth, BitVec.getLsbD_and, BitVec.getLsbD_sshiftRight]
  have hmask : (0x03FFFFFF#64).getLsbD (0 + i) = true := by
    revert i
    decide
  have hcode : (0x14000000#32).getLsbD (0 + i) = false := by
    revert i
    decide
  rw [hmask, hcode]
  simp only [hi, decide_true, Bool.true_and, Bool.false_or, Bool.and_true, Nat.zero_add]
  rw [show decide (i < 32) = true by simpa using (by omega : i < 32),
    show decide (64 ≤ i) = false by simpa using (by omega : i < 64), if_pos (by omega : 2 + i < 64)]
  rfl

theorem decode_a64B (delta : BitVec 64) : decode (a64B delta) = .b (delta.extractLsb' 2 26) := by
  have hadr : ¬ a64B delta &&& 0x1F000000#32 = 0x10000000#32 := by
    intro h
    have := and_of_and h (by decide : 0x1F000000#32 &&& 0x04000000#32 = 0x04000000#32)
    rw [and_a64B delta (by decide)] at this
    exact absurd this (by decide)
  rw [decode, if_neg hadr, if_pos (by rw [and_a64B delta (by decide)]; rfl),
    if_pos (by rw [and_a64B delta (by decide)]; rfl), extract_a64B]

theorem and_three (a : BitVec 64) : a &&& 3#64 = 0#64 ↔ a.toNat % 4 = 0 := by
  rw [← BitVec.toNat_inj, BitVec.toNat_and, show (3#64).toNat = 2 ^ 2 - 1 from rfl,
    Nat.and_two_pow_sub_one_eq_mod]
  rfl

/-- A word offset that fits is put back together. -/
theorem offset_extract {delta : BitVec 64} (haligned : delta &&& 3#64 = 0#64)
    (hlow : delta.toInt ≥ -2 ^ 27) (hhigh : delta.toInt < 2 ^ 27) :
    (delta.extractLsb' 2 26).signExtend 64 * 4#64 = delta := by
  rw [and_three] at haligned
  have hfield : (delta.extractLsb' 2 26).toNat = delta.toNat / 4 % 2 ^ 26 := by
    rw [BitVec.extractLsb'_toNat, Nat.shiftRight_eq_div_pow]
  have hvalue : (delta.extractLsb' 2 26).toInt * 4 = delta.toInt := by
    rw [BitVec.toInt_eq_toNat_cond] at hlow hhigh
    rw [BitVec.toInt_eq_toNat_cond, BitVec.toInt_eq_toNat_cond, hfield]
    have := delta.isLt
    split at hlow <;> split at hhigh <;> split <;> omega
  refine BitVec.eq_of_toInt_eq ?_
  rw [BitVec.toInt_mul, BitVec.toInt_signExtend_of_le (by decide), show (4#64).toInt = 4 from rfl,
    hvalue, BitVec.toInt_bmod_cancel]

/-- The words of an absolute jump, whichever scratch register it takes. -/
theorem emitAbsJump_eq (dest : Addr) : ∃ r : Reg, (r = 16#5 ∨ r = 17#5) ∧ emitAbsJump dest =
    [a64LdrLit64 (r.setWidth 32) 8, a64Br (r.setWidth 32), dest.setWidth 32,
      (dest >>> 32).setWidth 32] := by
  rw [emitAbsJump]
  split
  · exact ⟨17#5, .inr rfl, rfl⟩
  · exact ⟨16#5, .inl rfl, rfl⟩

/-- The other branch of a conditional that is not the first. -/
theorem eq_of_ite {c : Prop} [Decidable c] {a b insn : Insn} (h : (if c then a else b) = insn)
    (ha : a ≠ insn) : b = insn := by
  by_cases hc : c
  · rw [if_pos hc] at h
    exact absurd h ha
  · rwa [if_neg hc] at h

theorem ite_ne {c : Prop} [Decidable c] {a b insn : Insn} (ha : a ≠ insn) (hb : b ≠ insn) :
    (if c then a else b) ≠ insn := fun h ↦ hb (eq_of_ite h ha)

/-- A branch through a register is only recognised for the scratch registers. -/
theorem decode_brScratch_free {w : Word} {r : Reg} (h : decode w = .brScratch r) :
    r = 16#5 ∨ r = 17#5 := by
  have hliteral : decodeLiteral w ≠ .brScratch r := by
    rw [decodeLiteral]
    exact ite_ne (ite_ne (by simp) (ite_ne (by simp) (ite_ne (by simp) (by simp))))
      (ite_ne (by simp) (ite_ne (by simp) (ite_ne (by simp) (by simp))))
  rw [decode] at h
  have h := eq_of_ite h (ite_ne (by simp) (by simp))
  have h := eq_of_ite h (ite_ne (by simp) (by simp))
  have h := eq_of_ite h (by simp)
  have h := eq_of_ite h (by simp)
  have h := eq_of_ite h (by simp)
  have hscratch := eq_of_ite h hliteral
  rw [decodeScratch] at hscratch
  by_cases h16 : w = 0xD61F0200#32
  · rw [if_pos h16] at hscratch
    cases hscratch
    exact .inl rfl
  rw [if_neg h16] at hscratch
  by_cases h17 : w = 0xD61F0220#32
  · rw [if_pos h17] at hscratch
    cases hscratch
    exact .inr rfl
  rw [if_neg h17] at hscratch
  refine absurd hscratch (ite_ne (by simp) ?_)
  iterate 6 refine ite_ne (by simp) ?_
  exact ite_ne (by simp) (by simp)

theorem quad_append (value : BitVec 64) :
    (value >>> 32).setWidth 32 ++ value.setWidth 32 = value := by
  refine BitVec.eq_of_getLsbD_eq fun i hi ↦ ?_
  rw [BitVec.getLsbD_append]
  by_cases hlow : i < 32
  · simp [hlow]
  · simp [hlow, show i - 32 < 32 by omega, show 32 + (i - 32) = i by omega]

/-- **The emitted words jump where they were meant to.** -/
theorem decodeJump_emitBranch {source dest : Addr} (hsource : source &&& 3#64 = 0#64)
    (hdest : dest &&& 3#64 = 0#64) : decodeJump source (emitBranch source dest) = some dest := by
  rw [emitBranch]
  split
  · rename_i hsize
    have hdelta : (dest - source) &&& 3#64 = 0#64 := by
      rw [and_three] at hsource hdest ⊢
      rw [BitVec.toNat_sub]
      omega
    have hreach : (dest - source).toInt ≥ -2 ^ 27 ∧ (dest - source).toInt < 2 ^ 27 := by
      rw [branchSize] at hsize
      by_contra h
      rw [if_neg h] at hsize
      cases hsize
    rw [decodeJump, decode_a64B]
    show some (source + _) = some dest
    rw [offset_extract hdelta hreach.1 hreach.2, BitVec.add_comm, BitVec.sub_add_cancel]
  · obtain ⟨r, hr, hwords⟩ := emitAbsJump_eq dest
    rw [hwords, decodeJump, decode_ldrLit64, decode_br r hr]
    dsimp only
    rw [if_pos ⟨rfl, rfl⟩, quad_append]

theorem quad_words (low high : Word) : quad (high ++ low) = [low, high] := by
  have hlow : (high ++ low).setWidth 32 = low := by
    refine BitVec.eq_of_getLsbD_eq fun i hi ↦ ?_
    rw [BitVec.getLsbD_setWidth, BitVec.getLsbD_append]
    simp [hi]
  have hhigh : ((high ++ low) >>> 32).setWidth 32 = high := by
    refine BitVec.eq_of_getLsbD_eq fun i hi ↦ ?_
    rw [BitVec.getLsbD_setWidth, BitVec.getLsbD_ushiftRight, BitVec.getLsbD_append]
    simp [hi]
  rw [quad, hlow, hhigh]

/-! ## Executing the words -/

/-- The program counter and the state after `count` instructions from `pc` on. -/
def execute (cpu : Cpu) (text : Text) : Nat → Addr → State → Option (Addr × State)
  | 0, pc, s => some (pc, s)
  | count + 1, pc, s =>
    match step cpu text pc s with
    | none => none
    | some (e, s') => execute cpu text count (e.target next pc) s'

theorem execute_succ {cpu : Cpu} {text : Text} (count : Nat) {pc : Addr} {s s' : State}
    {e : Exit Addr} (h : step cpu text pc s = some (e, s')) :
    execute cpu text (count + 1) pc s = execute cpu text count (e.target next pc) s' := by
  rw [execute, h]

/-- How many of the words of a jump are instructions that are executed: a B alone, or the load and
the branch in front of the literal. -/
def executedWords (ws : List Word) : Nat := if ws.length = 1 then 1 else 2

/-- What the words mean to the processor: executing them ends at the address, and nothing but a
scratch register changes. -/
theorem decodeJump_runs (cpu : Cpu) {text : Text} {base dest : Addr} {ws : List Word}
    (h : decodeJump base ws = some dest) (htext : Text.Holds text base ws) (s : State) :
    ∃ s', Agree false s s' ∧ execute cpu text (executedWords ws) base s = some (dest, s') := by
  have hsame : Agree false s s := ⟨fun _ _ ↦ rfl, rfl, rfl, rfl, rfl⟩
  unfold decodeJump at h
  split at h
  · rename_i w
    split at h
    · rename_i imm hdecode
      cases h
      have hstep : step cpu text base s = some (.jump (offsetFrom base imm), s) := by
        rw [htext.step_zero cpu s, hdecode, exec]
      refine ⟨s, hsame, ?_⟩
      show execute cpu text (0 + 1) base s = _
      rw [execute_succ 0 hstep]
      rfl
    · cases h
  · rename_i load branch low high
    split at h
    · rename_i r imm r' hload hbranch
      split at h
      · rename_i heq
        obtain ⟨rfl, rfl⟩ := heq
        cases h
        have hr := decode_brScratch_free hbranch
        have hwords : Text.Holds text base ([load, branch] ++ quad (high ++ low) ++ []) := by
          rwa [List.append_nil, quad_words]
        have hloaded : step cpu text base s = some (.fall, s.writeX r (high ++ low)) := by
          rw [htext.step_zero cpu s, hload, exec_ldrLit64 hwords]
        have hread : (s.writeX r (high ++ low)).readX r = high ++ low := by
          rcases hr with rfl | rfl <;> simp [State.readX, State.writeX]
        have hjump : step cpu text (next base) (s.writeX r (high ++ low)) =
            some (.jump (high ++ low), s.writeX r (high ++ low)) := by
          have hstep := htext.step cpu (i := 1) rfl (s.writeX r (high ++ low))
          rw [hbranch, exec, hread] at hstep
          exact hstep
        refine ⟨s.writeX r (high ++ low), hsame.scratch (free_scratch hr) _, ?_⟩
        show execute cpu text (1 + 1) base s = _
        rw [execute_succ 1 hloaded]
        show execute cpu text (0 + 1) (next base) _ = _
        rw [execute_succ 0 hjump]
        rfl
      · cases h
    · cases h
  · cases h

/-- **Emitting a branch.**  The words are as many as the sizer says, and executing them where they
were meant to stand ends at the destination: a B at once, the literal form by way of x16 or x17. -/
theorem emitBranch_lands {source dest : Addr} (hsource : source &&& 3#64 = 0#64)
    (hdest : dest &&& 3#64 = 0#64) :
    4 * (emitBranch source dest).length = branchSize source dest ∧
      ∀ (cpu : Cpu) (text : Text) (s : State), Text.Holds text source (emitBranch source dest) →
        ∃ s', Agree false s s' ∧
          execute cpu text (if branchSize source dest = 4 then 1 else 2) source s =
            some (dest, s') := by
  have hlength := length_emitBranch source dest
  refine ⟨hlength, fun cpu text s htext ↦ ?_⟩
  have hcount : executedWords (emitBranch source dest) =
      if branchSize source dest = 4 then 1 else 2 := by
    rw [executedWords, ← hlength]
    refine if_congr ?_ rfl rfl
    omega
  rw [← hcount]
  exact decodeJump_runs cpu (decodeJump_emitBranch hsource hdest) htext s

/-- The ends of the range of a B on both sides, and what lies behind them: the farthest branch
backwards and forwards, and one word more by way of x16 and of x17. -/
theorem emitBranch_lands_ends :
    let source := 0x100000000#64
    let lands (dest : Addr) (count : Nat) : Prop :=
      ∃ s', Agree false zeroState s' ∧
        execute idleCpu (textOf source (emitBranch source dest)) count source zeroState =
          some (dest, s')
    lands 0xF8000000#64 1 ∧ lands 0x107FFFFFC#64 1 ∧ lands 0x108000000#64 2 ∧
      lands 0xF7FFFFFC#64 2 := by
  refine ⟨?_, ?_, ?_, ?_⟩
  · exact (emitBranch_lands (by decide) (by decide)).2 idleCpu _ zeroState
      (textOf_holds _ (by decide))
  · exact (emitBranch_lands (by decide) (by decide)).2 idleCpu _ zeroState
      (textOf_holds _ (by decide))
  · exact (emitBranch_lands (by decide) (by decide)).2 idleCpu _ zeroState
      (textOf_holds _ (by decide))
  · exact (emitBranch_lands (by decide) (by decide)).2 idleCpu _ zeroState
      (textOf_holds _ (by decide))

end Arm64
end HookKit
