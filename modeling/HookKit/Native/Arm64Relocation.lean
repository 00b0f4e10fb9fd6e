import HookKit.Native.Arm64Encoding

/-!
# Relocated code means what the original means

* `relocateOne_simulates` — one instruction: whatever the instruction at `pc` does from a state,
  the words `relocate_one` emits for it do from an agreeing state, wherever they are placed.
* `relocate_preserves` — the window: running the emitted block leaves at the same place as running
  the window, with the same registers and memory.
-/

set_option autoImplicit false

namespace HookKit
namespace Arm64

open Block

/-! ## Agreement -/

namespace Agree

variable {called : Bool} {s t : State}

theorem readX (h : Agree called s t) {r : Reg} (hr : ¬ Free called r) : s.readX r = t.readX r := by
  rw [State.readX, State.readX, h.x r hr]

theorem writeX (h : Agree called s t) (r : Reg) (value : BitVec 64) :
    Agree called (s.writeX r value) (t.writeX r value) := by
  rw [State.writeX, State.writeX]
  split
  · exact h
  · refine { h with x := fun r' hr' ↦ ?_ }
    by_cases hr : r' = r
    · subst hr; simp
    · simp [Function.update_of_ne hr, h.x r' hr']

theorem writeV (h : Agree called s t) (r : Reg) (value : BitVec 128) :
    Agree called (s.writeV r value) (t.writeV r value) :=
  { h with v := by rw [State.writeV, State.writeV, h.v] }

/-- Only the relocated side writes the scratch registers. -/
theorem scratch (h : Agree called s t) {r : Reg} (hr : Free called r) (value : BitVec 64) :
    Agree called s (t.writeX r value) := by
  rw [State.writeX]
  split
  · exact h
  · refine { h with x := fun r' hr' ↦ ?_ }
    have hne : r' ≠ r := fun heq ↦ hr' (heq ▸ hr)
    simp [Function.update_of_ne hne, h.x r' hr']

theorem symm (h : Agree called s t) : Agree called t s :=
  ⟨fun r hr ↦ (h.x r hr).symm, h.sp.symm, h.v.symm, h.nzcv.symm, h.mem.symm⟩

theorem calling (h : Agree called s t) : Agree true s t :=
  { h with x := fun r hr ↦ h.x r fun hf ↦ hr (hf.imp id (Or.imp id fun h30 ↦ ⟨rfl, h30.2⟩)) }

theorem mono (h : Agree called s t) {called' : Bool} (hc : called = true → called' = true) :
    Agree called' s t :=
  { h with x := fun r hr ↦ h.x r fun hf ↦ hr (hf.imp id (Or.imp id fun h30 ↦ ⟨hc h30.1, h30.2⟩)) }

/-- A load reads the same bytes on both sides when neither text hides them from the other. -/
theorem load {text₁ text₂ : Text} (h : Agree called s t) (kind : LoadKind) (rt : Reg) (a : Addr)
    (htext : ∀ k, k < kind.bytes → text₁ (a + BitVec.ofNat 64 k) = text₂ (a + BitVec.ofNat 64 k)) :
    Agree called (s.load text₁ kind rt a) (t.load text₂ kind rt a) := by
  have hread : ∀ n, n ≤ kind.bytes → readBytes text₁ s a n = readBytes text₂ t a n := by
    intro n hn
    induction n with
    | zero => rfl
    | succ n ih =>
      rw [readBytes, readBytes, ih (by omega), readByte, readByte, htext n (by omega), h.mem]
  simp only [State.load, hread _ (Nat.le_refl _)]
  cases kind
  case w | x | sw => exact h.writeX _ _
  case s | d | q => exact h.writeV _ _

end Agree

theorem free_scratch {called : Bool} {r : Reg} (hr : r = 16#5 ∨ r = 17#5) : Free called r :=
  hr.imp id Or.inl

/-! ## Running the emitted words -/

theorem inBlock_add (d : Addr) {k : Addr} {n : Nat} (h : k.toNat < 4 * n) :
    InBlock d n (d + k) := by
  rw [InBlock, show d + k - d = k by bv_omega]
  exact h

theorem inBlock_self (d : Addr) {n : Nat} (h : 0 < n) : InBlock d n d := by
  rw [InBlock, BitVec.sub_self]
  simpa using h

theorem offsetFrom_add (d k : Addr) {w : Nat} (imm : BitVec w) :
    offsetFrom (d + k) imm = d + (k + imm.signExtend 64 * 4#64) := by
  rw [offsetFrom, BitVec.add_assoc]

theorem next_add (d k : Addr) : next (d + k) = d + (k + 4#64) := by
  rw [next, BitVec.add_assoc]

theorem Text.Holds.step {text : Text} {base : Addr} {ws : List Word} (h : Text.Holds text base ws)
    (cpu : Cpu) {i : Nat} {w : Word} (hw : ws[i]? = some w) (s : State) :
    Arm64.step cpu text (base + BitVec.ofNat 64 (4 * i)) s =
      exec cpu text (base + BitVec.ofNat 64 (4 * i)) s (decode w) := by
  obtain ⟨hi, hget⟩ := List.getElem?_eq_some_iff.mp hw
  rw [Arm64.step, h.fetch hi, hget]

theorem Text.Holds.step_zero {text : Text} {base : Addr} {w : Word} {ws : List Word}
    (h : Text.Holds text base (w :: ws)) (cpu : Cpu) (s : State) :
    Arm64.step cpu text base s = exec cpu text base s (decode w) := by
  have hstep := h.step cpu (i := 0) rfl s
  rwa [Nat.mul_zero, BitVec.add_zero] at hstep

/-- `LDR Xr, #8` in front of a branch and a literal. -/
theorem exec_ldrLit64 {text : Text} {d : Addr} {w w' : Word} {value : BitVec 64} {ws : List Word}
    (h : Text.Holds text d ([w, w'] ++ quad value ++ ws)) (cpu : Cpu) (s : State) (r : Reg) :
    exec cpu text d s (.ldrLit .x r 2#19) = some (.fall, s.writeX r value) := by
  have hoff : offsetFrom d 2#19 = d + 8#64 := rfl
  have hquad : (readBytes text s (d + 8#64) 8).setWidth 64 = value := h.left.right.readQuad s
  simp only [exec, State.load, hoff, LoadKind.bytes, hquad]

variable {cpu : Cpu} {text : Text}

theorem emitLoadConst_reaches {d : Addr} {r : Reg} {value : BitVec 64} {ws : List Word}
    (h : Text.Holds text d (emitLoadConst (r.setWidth 32) value ++ ws)) (s : State) :
    Reaches (step cpu text) next (InBlock d (4 + ws.length)) d s (d + 16#64)
      (s.writeX r value) := by
  have hload : step cpu text d s = some (.fall, s.writeX r value) := by
    rw [h.step_zero cpu s, decode_ldrLit64, exec_ldrLit64 h]
  have hskip : step cpu text (d + 4#64) (s.writeX r value) =
      some (.jump (d + 16#64), s.writeX r value) := by
    have hstep := h.step cpu (i := 1) rfl (s.writeX r value)
    rw [decode_b_constant, exec, offsetFrom_add] at hstep
    exact hstep
  have h0 : Reaches (step cpu text) next (InBlock d (4 + ws.length)) d s (d + 4#64) _ :=
    .fall (inBlock_self d (by omega)) hload
  exact h0.trans (.jump (inBlock_add d (by rw [BitVec.toNat_ofNat]; omega)) hskip)

theorem emitAbsJump_reaches (cpu : Cpu) {d target : Addr}
    (h : Text.Holds text d (emitAbsJump target))
    (s : State) : ∃ r, (r = 16#5 ∨ r = 17#5) ∧
      Reaches (step cpu text) next (InBlock d 4) d s target (s.writeX r target) := by
  obtain ⟨r, hr, hwords⟩ : ∃ r : Reg, (r = 16#5 ∨ r = 17#5) ∧ emitAbsJump target =
      [a64LdrLit64 (r.setWidth 32) 8, a64Br (r.setWidth 32)] ++ quad target := by
    by_cases hbit : (target >>> 2) &&& 1#64 ≠ 0#64
    · exact ⟨17#5, .inr rfl, by rw [emitAbsJump, if_pos hbit]; rfl⟩
    · exact ⟨16#5, .inl rfl, by rw [emitAbsJump, if_neg hbit]; rfl⟩
  rw [hwords] at h
  have hload : step cpu text d s = some (.fall, s.writeX r target) := by
    have h' : Text.Holds text d
        ([a64LdrLit64 (r.setWidth 32) 8, a64Br (r.setWidth 32)] ++ quad target ++ []) := by
      rwa [List.append_nil]
    rw [h.step_zero cpu s, decode_ldrLit64, exec_ldrLit64 h']
  have hbr : step cpu text (d + 4#64) (s.writeX r target) =
      some (.jump target, s.writeX r target) := by
    have hstep := h.step cpu (i := 1) rfl (s.writeX r target)
    have hread : (s.writeX r target).readX r = target := by
      rcases hr with rfl | rfl <;> simp [State.readX, State.writeX]
    rw [decode_br r hr, exec, hread] at hstep
    exact hstep
  have h0 : Reaches (step cpu text) next (InBlock d 4) d s (d + 4#64) (s.writeX r target) :=
    .fall (inBlock_self d (by omega)) hload
  exact ⟨r, hr, h0.trans (.jump (inBlock_add d (by decide)) hbr)⟩

/-! ## One instruction -/

variable {text₁ text₂ : Text} {window : Addr → Prop} {called : Bool} {pc d : Addr}
  {insn : Word} {emitted : List Word}

/-- What relocating one instruction has to achieve: the instruction at `pc` and the words emitted
for it at `d` do the same, from any two agreeing states. -/
def Preserves (cpu : Cpu) (text₁ text₂ : Text) (window : Addr → Prop) (called : Bool) (pc d : Addr)
    (insn : Word) (emitted : List Word) : Prop :=
  ∀ s t, Agree called s t → ∃ e s' t', exec cpu text₁ pc s (decode insn) = some (e, s') ∧
    Agree (called || isCall insn) s' t' ∧
    Simulates (step cpu text₂) next window (InBlock d emitted.length) d
      (d + BitVec.ofNat 64 (4 * emitted.length)) t e t'

theorem Agree.after {s t : State} (h : Agree called s t) (insn : Word) :
    Agree (called || isCall insn) s t :=
  h.mono fun hc ↦ by rw [hc, Bool.true_or]

/-- ADR and ADRP: the address becomes a constant. -/
theorem adr_preserves (hclass : insn &&& 0x1F000000#32 = 0x10000000#32)
    {imm target : BitVec 64}
    (himm : imm = signExtend ((((insn >>> 5) &&& 0x7FFFF#32).setWidth 64 <<< 2) |||
      ((insn >>> 29) &&& 3#32).setWidth 64) 21)
    (htarget : target = if insn &&& 0x80000000#32 ≠ 0#32 then (pc &&& ~~~0xFFF#64) + (imm <<< 12)
      else pc + imm)
    (hd : Text.Holds text₂ d (emitLoadConst (insn &&& 31#32) target)) :
    Preserves cpu text₁ text₂ window called pc d insn (emitLoadConst (insn &&& 31#32) target) := by
  intro s t h
  rw [and_register] at hd ⊢
  have hd' : Text.Holds text₂ d (emitLoadConst ((rtOf insn).setWidth 32) target ++ []) := by
    rwa [List.append_nil]
  refine ⟨.fall, s.writeX (rtOf insn) target, t.writeX (rtOf insn) target, ?_,
    (h.writeX _ _).after insn, emitLoadConst_reaches hd' t, by simp⟩
  rw [signExtend_eq _ (by omega) (by omega), setWidth_adrField] at himm
  by_cases hpage : insn &&& 0x80000000#32 = 0#32
  · rw [if_neg (by simpa using hpage)] at htarget
    simp only [decode, if_pos hclass, if_pos hpage, exec, htarget, himm]
  · rw [if_pos (by simpa using hpage)] at htarget
    simp only [decode, if_pos hclass, if_neg hpage, exec, htarget, himm]

/-- B: a veneer to the target. -/
theorem b_preserves (hadr : insn &&& 0x1F000000#32 ≠ 0x10000000#32)
    (hclass : insn &&& 0x7C000000#32 = 0x14000000#32) (hlink : insn &&& 0x80000000#32 = 0#32)
    {target : Addr} (htarget : target = offsetFrom pc (insn.extractLsb' 0 26))
    (houtside : ¬ window target) (hd : Text.Holds text₂ d (emitAbsJump target)) :
    Preserves cpu text₁ text₂ window called pc d insn (emitAbsJump target) := by
  intro s t h
  obtain ⟨r, hr, hreach⟩ := emitAbsJump_reaches cpu hd t
  refine ⟨.jump target, s, _, ?_, (h.scratch (free_scratch hr) target).after insn, hreach, ?_⟩
  · simp only [decode, if_neg hadr, if_pos hclass, if_pos hlink, exec, htarget]
  · rintro a ⟨⟩; exact houtside

/-- BL: a call through x16, and a branch over the literal for the return. -/
theorem bl_preserves (hadr : insn &&& 0x1F000000#32 ≠ 0x10000000#32)
    (hclass : insn &&& 0x7C000000#32 = 0x14000000#32) (hlink : insn &&& 0x80000000#32 ≠ 0#32)
    {target : Addr} (htarget : target = offsetFrom pc (insn.extractLsb' 0 26))
    (hd : Text.Holds text₂ d
      ([a64LdrLit64 scratchJump 12, a64Blr scratchJump, a64B 12] ++ quad target)) :
    Preserves cpu text₁ text₂ window called pc d insn
      ([a64LdrLit64 scratchJump 12, a64Blr scratchJump, a64B 12] ++ quad target) := by
  intro s t h
  have hload : step cpu text₂ d t = some (.fall, t.writeX 16#5 target) := by
    have hoff : offsetFrom d 3#19 = d + 12#64 := rfl
    have hquad : (readBytes text₂ t (d + 12#64) 8).setWidth 64 = target := hd.right.readQuad t
    rw [hd.step_zero cpu t, decode_ldrLit64_call]
    simp only [exec, State.load, hoff, LoadKind.bytes, hquad]
  generalize ht₁ : t.writeX 16#5 target = t₁ at hload
  have hagree : Agree called s t₁ := ht₁ ▸ h.scratch (free_scratch (.inl rfl)) target
  have hcall : step cpu text₂ (d + 4#64) t₁ =
      some (.fall, cpu.call target (t₁.writeX 30#5 (d + 8#64))) := by
    have hstep := hd.step cpu (i := 1) rfl t₁
    have hread : t₁.readX 16#5 = target := by simp [← ht₁, State.readX, State.writeX]
    have hret : d + BitVec.ofNat 64 (4 * 1) + 4#64 = d + 8#64 := by bv_omega
    rw [decode_blr, exec, hread, hret] at hstep
    exact hstep
  have hskip : ∀ t', step cpu text₂ (d + 8#64) t' = some (.jump (d + 20#64), t') := by
    intro t'
    have hstep := hd.step cpu (i := 2) rfl t'
    rw [decode_b_constant, exec, offsetFrom_add] at hstep
    exact hstep
  have hreturn : Agree true (s.writeX 30#5 (pc + 4#64)) (t₁.writeX 30#5 (d + 8#64)) := by
    refine Agree.scratch ?_ (.inr (.inr ⟨rfl, rfl⟩)) _
    have hback : Agree true t₁ s := hagree.calling.symm
    exact (hback.scratch (.inr (.inr ⟨rfl, rfl⟩)) _).symm
  have h0 : Reaches (step cpu text₂) next (InBlock d 5) d t (d + 4#64) t₁ :=
    .fall (inBlock_self d (by omega)) hload
  generalize ht₂ : cpu.call target (t₁.writeX 30#5 (d + 8#64)) = t₂ at hcall
  have h1 : Reaches (step cpu text₂) next (InBlock d 5) (d + 4#64) t₁ (d + 8#64) t₂ := by
    have hfall : Reaches (step cpu text₂) next (InBlock d 5) (d + 4#64) t₁ (next (d + 4#64)) t₂ :=
      .fall (inBlock_add d (by decide)) hcall
    rwa [next_add] at hfall
  have h2 : ∀ t', Reaches (step cpu text₂) next (InBlock d 5) (d + 8#64) t' (d + 20#64) t' :=
    fun t' ↦ .jump (inBlock_add d (by decide)) (hskip t')
  refine ⟨.fall, cpu.call target (s.writeX 30#5 (pc + 4#64)), t₂, ?_, ?_,
    h0.trans (h1.trans (h2 t₂)), by simp⟩
  · simp only [decode, if_neg hadr, if_pos hclass, if_neg hlink, exec, ← htarget]
  · rw [isCall_of_link hclass hlink, Bool.or_true]
    exact ht₂ ▸ cpu.call_agree target _ _ hreturn

/-- The test a conditional branch makes, by its class. -/
theorem conditional_exec (text₁ text₂ : Text) (d : Addr) {retargeted : Word} {target : Addr}
    (hadr : insn &&& 0x1F000000#32 ≠ 0x10000000#32)
    (hb : insn &&& 0x7C000000#32 ≠ 0x14000000#32)
    (hcond : conditional insn pc = some (retargeted, target))
    (hind : Independent cpu window called pc (decode insn)) {s t : State} (h : Agree called s t) :
    ∃ taken, exec cpu text₁ pc s (decode insn) = some (branchIf taken target, s) ∧
      exec cpu text₂ d t (decode retargeted) = some (branchIf taken (d + 8#64), t) := by
  have himm19 : offsetFrom d 2#19 = d + 8#64 := rfl
  have himm14 : offsetFrom d 2#14 = d + 8#64 := rfl
  rw [conditional] at hcond
  split_ifs at hcond with hclass ht <;> cases hcond
  · have hadr' : a64SetImm19 insn 8 &&& 0x1F000000#32 ≠ 0x10000000#32 := by
      rwa [and_setImm19 insn (by decide)]
    have hb' : a64SetImm19 insn 8 &&& 0x7C000000#32 ≠ 0x14000000#32 := by
      rwa [and_setImm19 insn (by decide)]
    have htarget : branchTarget pc (signExtend (((insn >>> 5) &&& 0x7FFFF#32).setWidth 64) 19) =
        offsetFrom pc (imm19 insn) := branchTarget_field insn pc 5 19 (by decide) (by decide)
    by_cases hc : insn &&& 0xFF000010#32 = 0x54000000#32
    · have hc' : a64SetImm19 insn 8 &&& 0xFF000010#32 = 0x54000000#32 := by
        rwa [and_setImm19 insn (by decide)]
      refine ⟨condHolds (insn.extractLsb' 0 4) s.nzcv, ?_, ?_⟩
      · rw [decode, if_neg hadr, if_neg hb, if_pos hc, exec, ← htarget]
      · rw [decode, if_neg hadr', if_neg hb', if_pos hc', exec, imm19_setImm19, cond_setImm19,
          himm19, h.nzcv]
    · have hz := hclass.resolve_left hc
      have hc' : a64SetImm19 insn 8 &&& 0xFF000010#32 ≠ 0x54000000#32 := by
        rwa [and_setImm19 insn (by decide)]
      have hz' : a64SetImm19 insn 8 &&& 0x7E000000#32 = 0x34000000#32 := by
        rwa [and_setImm19 insn (by decide)]
      rw [decode, if_neg hadr, if_neg hb, if_neg hc, if_pos hz] at hind ⊢
      refine ⟨cbzHolds s (insn.getLsbD 31) (insn.getLsbD 24) (rtOf insn), ?_, ?_⟩
      · rw [exec, ← htarget]
      · rw [decode, if_neg hadr', if_neg hb', if_neg hc', if_pos hz', exec, imm19_setImm19,
          rtOf_setImm19, wide_setImm19, nonzero_setImm19, himm19, cbzHolds, cbzHolds, h.readX hind]
  · have hc : insn &&& 0xFF000010#32 ≠ 0x54000000#32 := fun hc ↦ hclass (.inl hc)
    have hz : insn &&& 0x7E000000#32 ≠ 0x34000000#32 := fun hz ↦ hclass (.inr hz)
    have hadr' : a64SetImm14 insn 8 &&& 0x1F000000#32 ≠ 0x10000000#32 := by
      rwa [and_setImm14 insn (by decide)]
    have hb' : a64SetImm14 insn 8 &&& 0x7C000000#32 ≠ 0x14000000#32 := by
      rwa [and_setImm14 insn (by decide)]
    have hc' : a64SetImm14 insn 8 &&& 0xFF000010#32 ≠ 0x54000000#32 := by
      rwa [and_setImm14 insn (by decide)]
    have hz' : a64SetImm14 insn 8 &&& 0x7E000000#32 ≠ 0x34000000#32 := by
      rwa [and_setImm14 insn (by decide)]
    have ht' : a64SetImm14 insn 8 &&& 0x7E000000#32 = 0x36000000#32 := by
      rwa [and_setImm14 insn (by decide)]
    have htarget : branchTarget pc (signExtend (((insn >>> 5) &&& 0x3FFF#32).setWidth 64) 14) =
        offsetFrom pc (insn.extractLsb' 5 14) :=
          branchTarget_field insn pc 5 14 (by decide) (by decide)
    rw [decode, if_neg hadr, if_neg hb, if_neg hc, if_neg hz, if_pos ht] at hind ⊢
    refine ⟨tbzHolds s (insn.getLsbD 24) (insn.extractLsb' 31 1 ++ insn.extractLsb' 19 5)
      (rtOf insn), ?_, ?_⟩
    · rw [exec, ← htarget]
    · rw [decode, if_neg hadr', if_neg hb', if_neg hc', if_neg hz', if_pos ht', exec,
        imm14_setImm14, rtOf_setImm14, nonzero_setImm14, testedBit_setImm14, himm14, tbzHolds,
        tbzHolds, h.readX hind]

/-- B.cond, CBZ/CBNZ, TBZ/TBNZ: the same test picks between the fall-through and a veneer. -/
theorem conditional_preserves {retargeted : Word} {target : Addr}
    (hadr : insn &&& 0x1F000000#32 ≠ 0x10000000#32)
    (hb : insn &&& 0x7C000000#32 ≠ 0x14000000#32)
    (hcond : conditional insn pc = some (retargeted, target))
    (hind : Independent cpu window called pc (decode insn)) (houtside : ¬ window target)
    (hd : Text.Holds text₂ d ([retargeted, a64B 20] ++ emitAbsJump target)) :
    Preserves cpu text₁ text₂ window called pc d insn
      ([retargeted, a64B 20] ++ emitAbsJump target) := by
  intro s t h
  obtain ⟨taken, hexec, hexec'⟩ := conditional_exec text₁ text₂ d hadr hb hcond hind h
  have htest : step cpu text₂ d t = some (branchIf taken (d + 8#64), t) := by
    rw [hd.step_zero cpu t, hexec']
  have hself : InBlock d 6 d := inBlock_self d (by omega)
  cases taken with
  | false =>
    have hskip : step cpu text₂ (d + 4#64) t = some (.jump (d + 24#64), t) := by
      have hstep := hd.step cpu (i := 1) rfl t
      rw [decode_b_conditional, exec, offsetFrom_add] at hstep
      exact hstep
    have h0 : Reaches (step cpu text₂) next (InBlock d 6) d t (d + 4#64) t := .fall hself htest
    exact ⟨.fall, s, t, hexec, h.after insn,
      h0.trans (.jump (inBlock_add d (by decide)) hskip), by simp⟩
  | true =>
    obtain ⟨r, hr, hreach⟩ := emitAbsJump_reaches cpu hd.right t
    have h0 : Reaches (step cpu text₂) next (InBlock d 6) d t (d + 8#64) t := .jump hself htest
    have hsub : ∀ a, InBlock (d + 8#64) 4 a → InBlock d 6 a := by
      intro a ha
      simp only [InBlock] at ha ⊢
      bv_omega
    refine ⟨.jump target, s, _, hexec, (h.scratch (free_scratch hr) target).after insn,
      h0.trans (hreach.mono hsub), ?_⟩
    rintro a ⟨⟩; exact houtside

/-- The load-literal group: the literal's address goes through x17. -/
theorem literal_preserves (htext : ∀ a, ¬ window a → text₁ a = text₂ a)
    {kind : LoadKind} (hdec : decode insn = .ldrLit kind (rtOf insn) (imm19 insn))
    (hind : Independent cpu window called pc (decode insn))
    {target : Addr} (htarget : target = offsetFrom pc (imm19 insn))
    (hd : Text.Holds text₂ d (emitLoadConst scratchLoad target ++
      [kind.word ||| (scratchLoad <<< 5) ||| (insn &&& 31#32)])) :
    Preserves cpu text₁ text₂ window called pc d insn (emitLoadConst scratchLoad target ++
      [kind.word ||| (scratchLoad <<< 5) ||| (insn &&& 31#32)]) := by
  intro s t h
  rw [and_register] at hd ⊢
  have haddr : Reaches (step cpu text₂) next (InBlock d 5) d t (d + 16#64)
      (t.writeX 17#5 target) := emitLoadConst_reaches (r := 17#5) hd t
  have hread : (t.writeX 17#5 target).readX 17#5 = target := by simp [State.readX, State.writeX]
  have hagree : Agree called s (t.writeX 17#5 target) := h.scratch (free_scratch (.inr rfl)) target
  generalize t.writeX 17#5 target = t₁ at haddr hread hagree
  have hload : step cpu text₂ (d + 16#64) t₁ =
      some (.fall, t₁.load text₂ kind (rtOf insn) target) := by
    have hstep := hd.step cpu (i := 4) rfl t₁
    rw [decode_scratchLoad, exec, hread] at hstep
    exact hstep
  generalize ht₂ : t₁.load text₂ kind (rtOf insn) target = t₂ at hload
  have hlast : Reaches (step cpu text₂) next (InBlock d 5) (d + 16#64) t₁ (d + 20#64) t₂ := by
    have hfall : Reaches (step cpu text₂) next (InBlock d 5) (d + 16#64) t₁ (next (d + 16#64)) t₂ :=
      .fall (inBlock_add d (by decide)) hload
    rwa [next_add] at hfall
  rw [hdec] at hind ⊢
  subst ht₂
  refine ⟨.fall, s.load text₁ kind (rtOf insn) target, _, ?_,
    (hagree.load kind (rtOf insn) target fun k hk ↦ htext _ ?_).after insn,
    haddr.trans hlast, by simp⟩
  · rw [exec, ← htarget]
  · rw [htarget]; exact hind k hk

/-- PRFM is dropped: a hint touches nothing. -/
theorem prfm_preserves (hdec : decode insn = .prfm) (hd : Text.Holds text₂ d [a64Nop]) :
    Preserves cpu text₁ text₂ window called pc d insn [a64Nop] := by
  intro s t h
  have hnop : step cpu text₂ d t = some (.fall, t) := by
    rw [hd.step_zero cpu t, decode_nop, exec]
  refine ⟨.fall, s, t, by rw [hdec, exec], h.after insn, ?_, by simp⟩
  exact .fall (inBlock_self d (by simp)) hnop

/-- Everything else is copied. -/
theorem copied_preserves (hdec : decode insn = decodeScratch insn)
    (hind : Independent cpu window called pc (decode insn)) (hd : Text.Holds text₂ d [insn]) :
    Preserves cpu text₁ text₂ window called pc d insn [insn] := by
  intro s t h
  have hself : InBlock d [insn].length d := inBlock_self d (by simp)
  have hstep := hd.step_zero cpu t
  rw [hdec] at hind hstep ⊢
  rcases decodeScratch_cases insn with ⟨r, hc⟩ | hc | ⟨kind, r, hc⟩ | hc | hc
  · rw [hc] at hind; exact hind.elim
  · rw [hc] at hind; exact hind.elim
  · rw [hc] at hind; exact hind.elim
  · rw [hc, exec] at hstep
    exact ⟨.fall, s, t, by rw [hc, exec], h.after insn, .fall hself hstep, by simp⟩
  · rw [hc] at hind hstep ⊢
    obtain ⟨hjump, hagree, hout⟩ := hind s t h
    rw [exec] at hstep ⊢
    rcases hs : cpu.other insn s with ⟨s', js⟩
    rcases ht : cpu.other insn t with ⟨t', jt⟩
    rw [hs, ht] at hjump hagree
    rw [hs] at hout
    rw [ht] at hstep
    cases hjump
    cases js with
    | none => exact ⟨.fall, s', t', rfl, hagree.after insn, .fall hself hstep, by simp⟩
    | some a =>
      refine ⟨.jump a, s', t', rfl, hagree.after insn, .jump hself hstep, ?_⟩
      rintro b ⟨⟩
      exact hout a rfl

theorem decode_of_conditional_none (hadr : insn &&& 0x1F000000#32 ≠ 0x10000000#32)
    (hb : insn &&& 0x7C000000#32 ≠ 0x14000000#32) (hcond : conditional insn pc = none) :
    decode insn = if insn &&& 0x3B000000#32 = 0x18000000#32 then decodeLiteral insn
      else decodeScratch insn := by
  rw [conditional] at hcond
  split_ifs at hcond with hclass ht
  have hc : insn &&& 0xFF000010#32 ≠ 0x54000000#32 := fun hc ↦ hclass (.inl hc)
  have hz : insn &&& 0x7E000000#32 ≠ 0x34000000#32 := fun hz ↦ hclass (.inr hz)
  rw [decode, if_neg hadr, if_neg hb, if_neg hc, if_neg hz, if_neg ht]

/-- **One instruction.**  Whatever the words emitted for an instruction are and wherever they are
placed, they do what the instruction does. -/
theorem relocateOne_preserves {patchStart patchEnd : Addr}
    (hwindow : ∀ a, window a → patchStart ≤ a ∧ a < patchEnd)
    (htext : ∀ a, ¬ window a → text₁ a = text₂ a)
    (hind : Independent cpu window called pc (decode insn))
    (hrel : relocateOne insn pc patchStart patchEnd = some emitted)
    (hd : Text.Holds text₂ d emitted) :
    Preserves cpu text₁ text₂ window called pc d insn emitted := by
  rw [relocateOne] at hrel
  by_cases hadr : insn &&& 0x1F000000#32 = 0x10000000#32
  · rw [if_pos hadr] at hrel
    cases hrel
    exact adr_preserves hadr rfl rfl hd
  rw [if_neg hadr] at hrel
  by_cases hb : insn &&& 0x7C000000#32 = 0x14000000#32
  · have htarget : branchTarget pc (signExtend ((insn &&& 0x03FFFFFF#32).setWidth 64) 26) =
        offsetFrom pc (insn.extractLsb' 0 26) :=
          branchTarget_field insn pc 0 26 (by decide) (by decide)
    simp only [if_pos hb] at hrel
    split_ifs at hrel with hrange hlink <;> cases hrel
    · exact b_preserves hadr hb hlink htarget (fun hw ↦ hrange (hwindow _ hw)) hd
    · exact bl_preserves hadr hb hlink htarget hd
  simp only [if_neg hb] at hrel
  cases hcond : conditional insn pc with
  | some p =>
    obtain ⟨retargeted, target⟩ := p
    simp only [hcond] at hrel
    split_ifs at hrel with hrange
    cases hrel
    exact conditional_preserves hadr hb hcond hind (fun hw ↦ hrange (hwindow _ hw)) hd
  | none =>
    simp only [hcond] at hrel
    have hdec := decode_of_conditional_none hadr hb hcond
    by_cases hlit : insn &&& 0x3B000000#32 = 0x18000000#32
    · rw [if_pos hlit] at hrel hdec
      by_cases hprfm : insn >>> 30 = 3#32 ∧ (insn >>> 26) &&& 1#32 = 0#32
      · rw [if_pos hprfm] at hrel
        cases hrel
        exact prfm_preserves (by rw [hdec, decodeLiteral_prfm hprfm.1 hprfm.2]) hd
      · rw [if_neg hprfm] at hrel
        cases hload : literalLoad (insn >>> 30) ((insn >>> 26) &&& 1#32) with
        | none => simp only [hload] at hrel; cases hrel
        | some load =>
          simp only [hload] at hrel
          cases hrel
          obtain ⟨kind, rfl, hkind⟩ := literalLoad_decode hload
          exact literal_preserves htext (hdec.trans hkind) hind
            (branchTarget_field insn pc 5 19 (by decide) (by decide)) hd
    · rw [if_neg hlit] at hrel hdec
      cases hrel
      exact copied_preserves hdec hind hd

/-! ## The window -/

/-- The loop writes one block of words for each instruction, one behind the other. -/
theorem relocateLoop_blocks {srcAddr patchEnd : Addr} {cap : Nat} {rest : List Word} {i : Nat}
    {out final : List Word} (h : relocateLoop srcAddr patchEnd cap rest i out = some final) :
    ∃ blocks : List (List Word), blocks.length = rest.length ∧ final = out ++ blocks.flatten ∧
      ∀ j insn emitted, rest[j]? = some insn → blocks[j]? = some emitted →
        relocateOne insn (srcAddr + BitVec.ofNat 64 (4 * (i + j))) srcAddr patchEnd =
          some emitted := by
  induction rest generalizing i out with
  | nil => cases h; exact ⟨[], rfl, by simp, by simp⟩
  | cons insn rest ih =>
    rw [relocateLoop] at h
    split_ifs at h
    split at h
    · cases h
    · rename_i emitted hone
      obtain ⟨blocks, hlen, hfinal, hblocks⟩ := ih h
      refine ⟨emitted :: blocks, by simp [hlen], by simp [hfinal], fun j insn' emitted' hj hj' ↦ ?_⟩
      cases j with
      | zero => cases hj; cases hj'; rw [Nat.add_zero, Nat.mul_comm]; exact hone
      | succ j =>
        rw [show i + (j + 1) = i + 1 + j by omega]
        exact hblocks j insn' emitted' hj hj'

theorem relocate_blocks {src : List Word} {srcAddr : Addr} {cap : Nat} {out : List Word}
    (h : relocate src srcAddr cap = some out) :
    src ≠ [] ∧ ∃ blocks : List (List Word), blocks.length = src.length ∧ out = blocks.flatten ∧
      ∀ j insn emitted, src[j]? = some insn → blocks[j]? = some emitted →
        relocateOne insn (srcAddr + BitVec.ofNat 64 (4 * j)) srcAddr
          (srcAddr + BitVec.ofNat 64 (src.length * 4)) = some emitted := by
  rw [relocate] at h
  split_ifs at h with hne
  obtain ⟨blocks, hlen, hout, hblocks⟩ := relocateLoop_blocks h
  refine ⟨hne, blocks, hlen, by simpa using hout, fun j insn emitted hj hj' ↦ ?_⟩
  simpa using hblocks j insn emitted hj hj'

/-- The window as the relocator's range check sees it, when it does not wrap around. -/
theorem inBlock_range {srcAddr a : Addr} {n : Nat} (hfits : srcAddr.toNat + 4 * n < 2 ^ 64)
    (h : InBlock srcAddr n a) :
    srcAddr ≤ a ∧ a < srcAddr + BitVec.ofNat 64 (n * 4) := by
  rw [InBlock] at h
  constructor
  · rw [BitVec.le_def]; bv_omega
  · rw [BitVec.lt_def]; bv_omega

theorem inBlock_sub {dst a : Addr} {off len n : Nat} (hle : off + len ≤ n)
    (h : InBlock (dst + BitVec.ofNat 64 (4 * off)) len a) : InBlock dst n a := by
  rw [InBlock] at h ⊢
  by_cases hbig : 4 * n < 2 ^ 64
  · bv_omega
  · have := (a - dst).isLt
    omega

theorem any_take_succ {α : Type*} (p : α → Bool) {l : List α} {i : Nat} {a : α}
    (h : l[i]? = some a) : (l.take (i + 1)).any p = ((l.take i).any p || p a) := by
  rw [List.take_add_one, h, List.any_append]
  simp

/-- The emitted block leaves at `place` exactly where the window leaves, with the same registers
and memory. -/
def PreservesWindow (cpu : Cpu) (text₁ text₂ : Text) (src : List Word) (srcAddr : Addr)
    (out : List Word) (dst : Addr) (s t : State) : Prop :=
  ∃ e s' t', Leaves (step cpu text₁) next (InBlock srcAddr src.length) srcAddr s e s' ∧
    Reaches (step cpu text₂) next (InBlock dst out.length) dst t
      (e.place (dst + BitVec.ofNat 64 (4 * out.length))) t' ∧
    Agree (src.any isCall) s' t'

/-- Every instruction of the window keeps to the preconditions of relocation.  `afterCall` tells
which instructions come after a call. -/
def WindowIndependent (cpu : Cpu) (src : List Word) (srcAddr : Addr) (afterCall : Nat → Bool) :
    Prop :=
  ∀ i insn, src[i]? = some insn →
    Independent cpu (InBlock srcAddr src.length) (afterCall i)
      (srcAddr + BitVec.ofNat 64 (4 * i)) (decode insn)

/-- **Relocation preserves the meaning of a window**: from agreeing states, with the two texts equal
off the window. -/
theorem relocate_preserves_agree {src out : List Word} {srcAddr dst : Addr} {cap : Nat}
    (hrel : relocate src srcAddr cap = some out)
    (hfits : srcAddr.toNat + 4 * src.length < 2 ^ 64)
    (hsrc : text₁.Holds srcAddr src) (hdst : text₂.Holds dst out)
    (htext : ∀ a, ¬ InBlock srcAddr src.length a → text₁ a = text₂ a)
    (hind : WindowIndependent cpu src srcAddr fun i ↦ (src.take i).any isCall)
    {s t : State} (h : Agree false s t) :
    PreservesWindow cpu text₁ text₂ src srcAddr out dst s t := by
  obtain ⟨hne, blocks, hlen, rfl, hblocks⟩ := relocate_blocks hrel
  let p := fun i ↦ srcAddr + BitVec.ofNat 64 (4 * i)
  let q := fun i ↦ dst + BitVec.ofNat 64 (4 * (blocks.take i).flatten.length)
  let R := fun i s t ↦ Agree ((src.take i).any isCall) s t
  have hpos : 0 < src.length := List.length_pos_iff.mpr hne
  have hoff : ∀ i, p i - srcAddr = BitVec.ofNat 64 (4 * i) := fun i ↦ by simp only [p]; bv_omega
  have hrun : ∃ e s' t', Leaves (step cpu text₁) next (InBlock srcAddr src.length) (p 0) s e s' ∧
      Reaches (step cpu text₂) next (InBlock dst blocks.flatten.length) (q 0) t
        (e.place (q src.length)) t' ∧ R src.length s' t' := by
    refine Leaves.translate p q R ?_ ?_ ?_ ?_ ?_ 0 s t hpos h
    · intro i hi
      rw [InBlock, hoff, BitVec.toNat_ofNat]
      omega
    · rw [InBlock, hoff, BitVec.toNat_ofNat]
      omega
    · intro i _
      simp only [p, next]
      bv_omega
    · intro i s t hi hR
      refine hR.mono fun hcalled ↦ ?_
      rw [List.take_length]
      obtain ⟨w, hw, hcall⟩ := List.any_eq_true.mp hcalled
      exact List.any_eq_true.mpr ⟨w, List.mem_of_mem_take hw, hcall⟩
    · intro i s t hi hR
      -- the `i`-th block lies behind the blocks written before it
      have hinsn : src[i]? = some src[i] := List.getElem?_eq_getElem hi
      have hblock : blocks[i]? = some blocks[i] := List.getElem?_eq_getElem (hlen ▸ hi)
      have hsplit : blocks.flatten =
          (blocks.take i).flatten ++ (blocks[i] ++ (blocks.drop (i + 1)).flatten) := by
        rw [← List.flatten_cons, ← List.drop_eq_getElem_cons, ← List.flatten_append,
          List.take_append_drop]
      have hheld : text₂.Holds (q i) blocks[i] := by
        rw [hsplit] at hdst
        exact hdst.right.left
      have hnextLen : (blocks.take (i + 1)).flatten.length =
          (blocks.take i).flatten.length + blocks[i].length := by
        rw [List.take_add_one, hblock, List.flatten_append]
        simp
      obtain ⟨e, s', t', hexec, hagree, hreach, hjump⟩ :=
        relocateOne_preserves (fun a ↦ inBlock_range hfits) htext (hind i src[i] hinsn)
          (hblocks i src[i] blocks[i] hinsn hblock) hheld s t hR
      refine ⟨e, s', t', ?_, ?_, ?_, hjump⟩
      · rw [hsrc.step cpu hinsn, hexec]
      · simp only [R, any_take_succ isCall hinsn]
        exact hagree
      · have hplace : q (i + 1) = q i + BitVec.ofNat 64 (4 * blocks[i].length) := by
          simp only [q, hnextLen]
          rw [BitVec.add_assoc, ← BitVec.ofNat_add, Nat.mul_add]
        rw [hplace]
        refine hreach.mono fun a ha ↦ inBlock_sub ?_ ha
        rw [hsplit, List.length_append, List.length_append]
        omega
  obtain ⟨e, s', t', hleave, hreach, hagree⟩ := hrun
  refine ⟨e, s', t', by simpa [p] using hleave, ?_, by simpa [R] using hagree⟩
  simpa only [q, ← hlen, List.take_length, List.take_zero, List.flatten_nil, List.length_nil,
    Nat.mul_zero, BitVec.ofNat_eq_ofNat, BitVec.add_zero] using hreach

/-- The text in which the words `ws` are mapped from `base` on, and nothing else is. -/
def textOf (base : Addr) (ws : List Word) : Text := fun a ↦
  (ws[(a - base).toNat / 4]?).map fun w ↦ byteOf w ((a - base).toNat % 4)

/-- `front` hides `back` where it is mapped. -/
def overlay (front back : Text) : Text := fun a ↦ (front a).or (back a)

theorem textOf_holds (base : Addr) {ws : List Word} (h : 4 * ws.length ≤ 2 ^ 64) :
    (textOf base ws).Holds base ws := by
  intro i hi k hk
  have hoff : (base + BitVec.ofNat 64 (4 * i + k) - base).toNat = 4 * i + k := by
    rw [show base + BitVec.ofNat 64 (4 * i + k) - base = BitVec.ofNat 64 (4 * i + k) by bv_omega,
      BitVec.toNat_ofNat]
    omega
  rw [textOf, hoff, show (4 * i + k) / 4 = i by omega, show (4 * i + k) % 4 = k by omega,
    List.getElem?_eq_getElem hi]
  rfl

theorem overlay_holds {front : Text} (back : Text) {base : Addr} {ws : List Word}
    (h : front.Holds base ws) : (overlay front back).Holds base ws := by
  intro i hi k hk
  rw [overlay, h i hi k hk]
  rfl

theorem overlay_textOf {base a : Addr} {ws : List Word} (back : Text)
    (h : ¬ InBlock base ws.length a) : overlay (textOf base ws) back a = back a := by
  rw [InBlock] at h
  rw [overlay, textOf, List.getElem?_eq_none (by omega)]
  rfl

/-- Position-independent code does nothing here, and every function returns at once. -/
def idleCpu : Cpu where
  other _ s := (s, none)
  call _ s := s
  call_agree _ _ _ h := h

/-- An ADRP and a call, and what they are relocated to. -/
def pageCall : List Word := [0xB0000008#32, 0x94000040#32]

def pageCallBlock : List Word := emitLoadConst 8#32 0x2000#64 ++
  ([a64LdrLit64 scratchJump 12, a64Blr scratchJump, a64B 12] ++ quad 0x1104#64)

def zeroState : State := ⟨fun _ ↦ 0#64, 0#64, fun _ ↦ 0#128, 0#4, fun _ ↦ 0#8⟩

/-- The address of the last word there is. -/
def lastWord : Addr := 0xFFFFFFFFFFFFFFFC#64

/-- `B .`, which never leaves. -/
def selfBranch : List Word := [0x14000000#32]

/-- At the very end of the address space the relocator's range check wraps around, and code that
never leaves is replaced by a jump out of the block. -/
theorem selfBranch_not_preserved (s : State) :
    ¬ PreservesWindow idleCpu
      (overlay (textOf lastWord selfBranch) (textOf 0x8000#64 (emitAbsJump lastWord)))
      (textOf 0x8000#64 (emitAbsJump lastWord)) selfBranch lastWord (emitAbsJump lastWord)
      0x8000#64 s s := by
  rintro ⟨e, s', t', hleave, -, -⟩
  exact Leaves.not_of_loop (by decide) (fun s ↦ ⟨s, rfl⟩) hleave

/-- A processor whose position-independent words are all `MOV X0, X30`. -/
def saveReturnCpu : Cpu where
  other _ s := (s.writeX 0#5 (s.x 30#5), none)
  call _ s := s
  call_agree _ _ _ h := h

/-- A call followed by `MOV X0, X30`, and what they are relocated to. -/
def callThenRead : List Word := [0x94000040#32, 0xAA1E03E0#32]

def callThenReadBlock : List Word :=
  [a64LdrLit64 scratchJump 12, a64Blr scratchJump, a64B 12] ++ quad 0x1100#64 ++ [0xAA1E03E0#32]

/-- A window that calls and then reads the return address sees where the call really was. -/
theorem callThenRead_not_preserved :
    ¬ PreservesWindow saveReturnCpu
      (overlay (textOf 0x1000#64 callThenRead) (textOf 0x8000#64 callThenReadBlock))
      (textOf 0x8000#64 callThenReadBlock) callThenRead 0x1000#64 callThenReadBlock 0x8000#64
      zeroState zeroState := by
  rintro ⟨e, s', t', hleave, hreach, hagree⟩
  have hleft : Leaves (step saveReturnCpu
      (overlay (textOf 0x1000#64 callThenRead) (textOf 0x8000#64 callThenReadBlock))) next
      (InBlock 0x1000#64 2) 0x1000#64 zeroState .fall
      ((zeroState.writeX 30#5 0x1004#64).writeX 0#5 0x1004#64) := by
    refine .more (by decide) (show _ = some (.fall, zeroState.writeX 30#5 0x1004#64) from rfl)
      (by decide) (.last (by decide) rfl (by decide))
  obtain ⟨rfl, rfl⟩ := hleft.unique hleave
  have hcalled : Reaches (step saveReturnCpu (textOf 0x8000#64 callThenReadBlock)) next
      (InBlock 0x8000#64 6) 0x8000#64 zeroState 0x8018#64
      (((zeroState.writeX 16#5 0x1100#64).writeX 30#5 0x8008#64).writeX 0#5 0x8008#64) := by
    refine .step (by decide) (show _ = some (.fall, zeroState.writeX 16#5 0x1100#64) from rfl) ?_
    refine .step (by decide) (show _ = some (.fall,
      (zeroState.writeX 16#5 0x1100#64).writeX 30#5 0x8008#64) from rfl) ?_
    refine .step (by decide) (show _ = some (.jump 0x8014#64, _) from rfl) ?_
    exact .step (by decide) (show _ = some (.fall, _) from rfl) (.refl _ _)
  have heq := hcalled.unique (by decide) hreach
  have hx0 := hagree.x 0#5 (by decide)
  rw [← heq] at hx0
  exact absurd hx0 (by decide)

theorem selfBranch_independent (afterCall : Nat → Bool) :
    WindowIndependent idleCpu selfBranch lastWord afterCall := by
  intro i insn hi
  match i with
  | 0 => cases hi; trivial
  | i + 1 => cases hi

theorem callThenRead_independent :
    WindowIndependent saveReturnCpu callThenRead 0x1000#64 fun _ ↦ false := by
  intro i insn hi
  match i with
  | 0 => cases hi; trivial
  | 1 =>
    cases hi
    intro s t h
    refine ⟨rfl, ?_, fun a ha ↦ by cases ha⟩
    simp only [saveReturnCpu, h.x 30#5 (by decide)]
    exact h.writeX _ _
  | i + 2 => cases hi

end Arm64
end HookKit
