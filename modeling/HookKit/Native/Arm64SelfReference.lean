import HookKit.Native.Arm64Relocation

/-!
# Windows that refer to themselves

The relocated copy of a window runs while the window itself is overwritten, so an instruction that
jumps into the window, or reads a literal from it, cannot be relocated.

* `Insn.branchTo`, `Insn.literalAt` — what an instruction refers to.
* `Refused`, `relocate_eq_none_iff` — when `hk_arm64_relocate` refuses a window, from the window
  alone.
* `failsClosed_iff` — it refuses every window that refers to itself, but for literal loads, and but
  for a window at the very end of the address space.
-/

set_option autoImplicit false

namespace HookKit
namespace Arm64

/-! ## References -/

/-- The address a branch at `pc` goes to. -/
def Insn.branchTo (pc : Addr) : Insn → Option Addr
  | .b imm | .bl imm => some (offsetFrom pc imm)
  | .bcond _ imm | .cbz _ _ _ imm => some (offsetFrom pc imm)
  | .tbz _ _ _ imm => some (offsetFrom pc imm)
  | _ => none

/-- The address of the literal an instruction at `pc` loads, and how many bytes of it there are.
PRFM loads nothing. -/
def Insn.literalAt (pc : Addr) : Insn → Option (Addr × Nat)
  | .ldrLit kind _ imm => some (offsetFrom pc imm, kind.bytes)
  | _ => none

/-- The address lies among the `count` words from `srcAddr` on. -/
def Inside (srcAddr : Addr) (count : Nat) (a : Addr) : Prop :=
  srcAddr.toNat ≤ a.toNat ∧ a.toNat < srcAddr.toNat + 4 * count

instance (srcAddr : Addr) (count : Nat) (a : Addr) : Decidable (Inside srcAddr count a) :=
  inferInstanceAs (Decidable (_ ∧ _))

/-- The address of an instruction of a window. -/
def insnAddr (srcAddr : Addr) (i : Nat) : Addr := srcAddr + BitVec.ofNat 64 (4 * i)

/-- Some instruction of the window branches into it. -/
def BranchesInside (src : List Word) (srcAddr : Addr) : Prop :=
  ∃ i insn a, src[i]? = some insn ∧ (decode insn).branchTo (insnAddr srcAddr i) = some a ∧
    Inside srcAddr src.length a

/-- Some instruction of the window loads a literal of which a byte lies in the window. -/
def LoadsInside (src : List Word) (srcAddr : Addr) : Prop :=
  ∃ i insn a n k, src[i]? = some insn ∧
    (decode insn).literalAt (insnAddr srcAddr i) = some (a, n) ∧ k < n ∧
    Inside srcAddr src.length (a + BitVec.ofNat 64 k)

/-! ## What is refused -/

/-- The number of words an instruction is rewritten to. -/
def Insn.relocWords : Insn → Nat
  | .adr _ _ | .adrp _ _ | .b _ => 4
  | .bl _ | .ldrLit _ _ _ => 5
  | .bcond _ _ | .cbz _ _ _ _ | .tbz _ _ _ _ => 6
  | .undefinedLit => 0
  | _ => 1

/-- The number of words the first instructions of a window are rewritten to. -/
def wordsBefore (src : List Word) (i : Nat) : Nat :=
  ((src.take i).map fun w ↦ (decode w).relocWords).sum

/-- What makes `relocate_one` refuse an instruction: it is not allocated, or a branch into the
range. -/
def Insn.Unrelocatable (pc patchStart patchEnd : Addr) (insn : Insn) : Prop :=
  insn = .undefinedLit ∨ ∃ a, insn.branchTo pc = some a ∧ patchStart ≤ a ∧ a < patchEnd

/-- What makes `hk_arm64_relocate` refuse a window: it is empty, or at some instruction there may
not be enough room left, or the instruction cannot be relocated. -/
def Refused (src : List Word) (srcAddr : Addr) (dstCapacity : Nat) : Prop :=
  src = [] ∨ ∃ i insn, src[i]? = some insn ∧
    (dstCapacity < 4 * wordsBefore src i + maxRelocBytes ∨
      (decode insn).Unrelocatable (insnAddr srcAddr i) srcAddr
        (srcAddr + BitVec.ofNat 64 (src.length * 4)))

/-! ### One instruction -/

section One

variable {insn : Word} {pc patchStart patchEnd : Addr}

theorem adr_branchTo (h : insn &&& 0x1F000000#32 = 0x10000000#32) :
    (decode insn).branchTo pc = none ∧ decode insn ≠ .undefinedLit ∧
      (decode insn).relocWords = 4 := by
  rw [decode, if_pos h]
  split <;> exact ⟨rfl, by simp, rfl⟩

theorem conditional_branchTo {retargeted : Word} {target : Addr}
    (hadr : insn &&& 0x1F000000#32 ≠ 0x10000000#32)
    (hb : insn &&& 0x7C000000#32 ≠ 0x14000000#32)
    (hcond : conditional insn pc = some (retargeted, target)) :
    (decode insn).branchTo pc = some target ∧ decode insn ≠ .undefinedLit ∧
      (decode insn).relocWords = 6 := by
  rw [conditional] at hcond
  split_ifs at hcond with hclass ht <;> cases hcond
  · have htarget : branchTarget pc (signExtend (((insn >>> 5) &&& 0x7FFFF#32).setWidth 64) 19) =
        offsetFrom pc (imm19 insn) := branchTarget_field insn pc 5 19 (by decide) (by decide)
    by_cases hc : insn &&& 0xFF000010#32 = 0x54000000#32
    · rw [decode, if_neg hadr, if_neg hb, if_pos hc, htarget]
      exact ⟨rfl, by simp, rfl⟩
    · rw [decode, if_neg hadr, if_neg hb, if_neg hc, if_pos (hclass.resolve_left hc), htarget]
      exact ⟨rfl, by simp, rfl⟩
  · have hc : insn &&& 0xFF000010#32 ≠ 0x54000000#32 := fun hc ↦ hclass (.inl hc)
    have hz : insn &&& 0x7E000000#32 ≠ 0x34000000#32 := fun hz ↦ hclass (.inr hz)
    have htarget : branchTarget pc (signExtend (((insn >>> 5) &&& 0x3FFF#32).setWidth 64) 14) =
        offsetFrom pc (insn.extractLsb' 5 14) :=
      branchTarget_field insn pc 5 14 (by decide) (by decide)
    rw [decode, if_neg hadr, if_neg hb, if_neg hc, if_neg hz, if_pos ht, htarget]
    exact ⟨rfl, by simp, rfl⟩

theorem decodeScratch_branchTo :
    (decodeScratch insn).branchTo pc = none ∧ decodeScratch insn ≠ .undefinedLit ∧
      (decodeScratch insn).relocWords = 1 := by
  rcases decodeScratch_cases insn with ⟨r, h⟩ | h | ⟨kind, r, h⟩ | h | h <;> rw [h] <;>
    exact ⟨rfl, nofun, rfl⟩

/-- The one literal load there is no load for is the one that is not allocated. -/
theorem decodeLiteral_none (hprfm : ¬ (insn >>> 30 = 3#32 ∧ (insn >>> 26) &&& 1#32 = 0#32))
    (h : literalLoad (insn >>> 30) ((insn >>> 26) &&& 1#32) = none) :
    decodeLiteral insn = .undefinedLit := by
  have h0 := opc_eq insn 0#2
  have h1 := opc_eq insn 1#2
  have h2 := opc_eq insn 2#2
  have h3 := opc_eq insn 3#2
  simp only [BitVec.reduceSetWidth] at h0 h1 h2 h3
  have hfour : insn &&& 0xC0000000#32 = 0#32 ∨ insn &&& 0xC0000000#32 = 0x40000000#32 ∨
      insn &&& 0xC0000000#32 = 0x80000000#32 ∨ insn >>> 30 = 3#32 := by
    have hlt : (insn >>> 30).toNat < 4 := by
      rw [BitVec.toNat_ushiftRight, Nat.shiftRight_eq_div_pow]
      omega
    have hcases : insn >>> 30 = 0#32 ∨ insn >>> 30 = 1#32 ∨ insn >>> 30 = 2#32 ∨
        insn >>> 30 = 3#32 := by
      simp only [← BitVec.toNat_inj, BitVec.toNat_ofNat]
      omega
    rcases hcases with h | h | h | h
    · exact .inl (h0.mp h)
    · exact .inr (.inl (h1.mp h))
    · exact .inr (.inr (.inl (h2.mp h)))
    · exact .inr (.inr (.inr h))
  simp only [literalLoad, v_eq, h0, h1, h2] at h
  rw [v_eq] at hprfm
  simp only [decodeLiteral]
  split_ifs at h ⊢ <;> first | rfl | (exfalso; simp_all)

/-- **When one instruction is refused, and how long its replacement is.** -/
theorem relocateOne_spec (insn : Word) (pc patchStart patchEnd : Addr) :
    relocateOne insn pc patchStart patchEnd = none ∧
        (decode insn).Unrelocatable pc patchStart patchEnd ∨
      ∃ emitted, relocateOne insn pc patchStart patchEnd = some emitted ∧
        ¬ (decode insn).Unrelocatable pc patchStart patchEnd ∧
        emitted.length = (decode insn).relocWords := by
  -- an allocated instruction that is no branch is never refused
  have hkept : (decode insn).branchTo pc = none → decode insn ≠ .undefinedLit →
      ¬ (decode insn).Unrelocatable pc patchStart patchEnd := by
    rintro hnone hne (h | ⟨a, ha, -⟩)
    · exact hne h
    · rw [hnone] at ha
      cases ha
  -- and a branch just when it stays inside
  have hbranch : ∀ a, (decode insn).branchTo pc = some a → decode insn ≠ .undefinedLit →
      ((decode insn).Unrelocatable pc patchStart patchEnd ↔ patchStart ≤ a ∧ a < patchEnd) := by
    intro a ha hne
    constructor
    · rintro (h | ⟨b, hb, hin⟩)
      · exact absurd h hne
      · cases ha.symm.trans hb
        exact hin
    · exact fun hin ↦ .inr ⟨a, ha, hin⟩
  rw [relocateOne]
  by_cases hadr : insn &&& 0x1F000000#32 = 0x10000000#32
  · rw [if_pos hadr]
    obtain ⟨hnone, hne, hwords⟩ := adr_branchTo hadr
    exact .inr ⟨_, rfl, hkept hnone hne, by rw [hwords]; rfl⟩
  rw [if_neg hadr]
  by_cases hb : insn &&& 0x7C000000#32 = 0x14000000#32
  · have htarget : branchTarget pc (signExtend ((insn &&& 0x03FFFFFF#32).setWidth 64) 26) =
        offsetFrom pc (insn.extractLsb' 0 26) :=
      branchTarget_field insn pc 0 26 (by decide) (by decide)
    rw [if_pos hb, htarget]
    have hdecode : decode insn = if insn &&& 0x80000000#32 = 0#32 then
        .b (insn.extractLsb' 0 26) else .bl (insn.extractLsb' 0 26) := by
      rw [decode, if_neg hadr, if_pos hb]
    have hto : (decode insn).branchTo pc = some (offsetFrom pc (insn.extractLsb' 0 26)) := by
      rw [hdecode]
      split <;> rfl
    have hne : decode insn ≠ .undefinedLit := by
      rw [hdecode]
      split <;> simp
    dsimp only
    split
    · rename_i hin
      exact .inl ⟨rfl, (hbranch _ hto hne).mpr hin⟩
    · rename_i hout
      refine .inr ?_
      split
      · rename_i hlink
        refine ⟨_, rfl, fun h ↦ hout ((hbranch _ hto hne).mp h), ?_⟩
        rw [hdecode, if_pos hlink]
        rfl
      · rename_i hlink
        refine ⟨_, rfl, fun h ↦ hout ((hbranch _ hto hne).mp h), ?_⟩
        rw [hdecode, if_neg hlink]
        rfl
  rw [if_neg hb]
  cases hcond : conditional insn pc with
  | some p =>
    obtain ⟨retargeted, target⟩ := p
    obtain ⟨hto, hne, hwords⟩ := conditional_branchTo hadr hb hcond
    dsimp only
    split
    · rename_i hin
      exact .inl ⟨rfl, (hbranch _ hto hne).mpr hin⟩
    · rename_i hout
      exact .inr ⟨_, rfl, fun h ↦ hout ((hbranch _ hto hne).mp h), by rw [hwords]; rfl⟩
  | none =>
    have hdec := decode_of_conditional_none hadr hb hcond
    dsimp only
    by_cases hlit : insn &&& 0x3B000000#32 = 0x18000000#32
    · rw [if_pos hlit] at hdec ⊢
      by_cases hprfm : insn >>> 30 = 3#32 ∧ (insn >>> 26) &&& 1#32 = 0#32
      · rw [if_pos hprfm]
        rw [decodeLiteral_prfm hprfm.1 hprfm.2] at hdec
        refine .inr ⟨_, rfl, hkept (by rw [hdec]; rfl) (by rw [hdec]; simp), ?_⟩
        rw [hdec]
        rfl
      · rw [if_neg hprfm]
        cases hload : literalLoad (insn >>> 30) ((insn >>> 26) &&& 1#32) with
        | none => exact .inl ⟨rfl, .inl (hdec.trans (decodeLiteral_none hprfm hload))⟩
        | some load =>
          obtain ⟨kind, -, hkind⟩ := literalLoad_decode hload
          rw [hkind] at hdec
          refine .inr ⟨_, rfl, hkept (by rw [hdec]; rfl) (by rw [hdec]; simp), ?_⟩
          rw [hdec]
          rfl
    · rw [if_neg hlit] at hdec ⊢
      obtain ⟨hnone, hne, hwords⟩ := @decodeScratch_branchTo insn pc
      rw [← hdec] at hnone hne hwords
      exact .inr ⟨_, rfl, hkept hnone hne, by rw [hwords]; rfl⟩

end One

/-! ### The window -/

theorem wordsBefore_succ (insn : Word) (rest : List Word) (i : Nat) :
    wordsBefore (insn :: rest) (i + 1) = (decode insn).relocWords + wordsBefore rest i := by
  simp [wordsBefore]

theorem wordsBefore_zero (src : List Word) : wordsBefore src 0 = 0 := by simp [wordsBefore]

/-- The loop gives up at the first instruction that is a reason to. -/
theorem relocateLoop_eq_none_iff {srcAddr patchEnd : Addr} {cap : Nat} {rest : List Word} {i : Nat}
    {out : List Word} : relocateLoop srcAddr patchEnd cap rest i out = none ↔
      ∃ j insn, rest[j]? = some insn ∧
        (cap < 4 * (out.length + wordsBefore rest j) + maxRelocBytes ∨
          (decode insn).Unrelocatable (insnAddr srcAddr (i + j)) srcAddr patchEnd) := by
  induction rest generalizing i out with
  | nil => simp [relocateLoop]
  | cons first rest ih =>
    have haddr : srcAddr + BitVec.ofNat 64 (i * 4) = insnAddr srcAddr (i + 0) := by
      rw [insnAddr, Nat.mul_comm, Nat.add_zero]
    rw [relocateLoop, haddr]
    split
    · rename_i hfull
      refine iff_of_true rfl ⟨0, first, rfl, .inl ?_⟩
      rw [wordsBefore_zero]
      exact hfull
    · rename_i hroom
      rcases relocateOne_spec first (insnAddr srcAddr (i + 0)) srcAddr patchEnd with
        ⟨hnone, hbad⟩ | ⟨emitted, hsome, hgood, hlength⟩
      · rw [hnone]
        exact iff_of_true rfl ⟨0, first, rfl, .inr hbad⟩
      · rw [hsome]
        dsimp only
        rw [ih]
        constructor
        · rintro ⟨j, insn, hget, hreason⟩
          refine ⟨j + 1, insn, hget, ?_⟩
          rwa [wordsBefore_succ, ← hlength, ← Nat.add_assoc, ← List.length_append,
            show i + (j + 1) = i + 1 + j by omega]
        · rintro ⟨j, insn, hget, hreason⟩
          cases j with
          | zero =>
            cases hget
            rw [wordsBefore_zero] at hreason
            exact absurd hreason (not_or.mpr ⟨hroom, hgood⟩)
          | succ j =>
            refine ⟨j, insn, hget, ?_⟩
            rwa [wordsBefore_succ, ← hlength, ← Nat.add_assoc, ← List.length_append,
              show i + (j + 1) = i + 1 + j by omega] at hreason

/-- **When a window is refused.** -/
theorem relocate_eq_none_iff (src : List Word) (srcAddr : Addr) (cap : Nat) :
    relocate src srcAddr cap = none ↔ Refused src srcAddr cap := by
  rw [relocate, Refused]
  split
  · rename_i hempty
    exact iff_of_true rfl (.inl hempty)
  · rename_i hsome
    rw [relocateLoop_eq_none_iff, or_iff_right hsome]
    simp only [List.length_nil, Nat.zero_add]

/-! ## Failing closed -/

/-- A window that refers to itself is refused. -/
def FailsClosed (src : List Word) (srcAddr : Addr) (cap : Nat) : Prop :=
  BranchesInside src srcAddr ∨ LoadsInside src srcAddr → relocate src srcAddr cap = none

/-- A branch into the window is refused, unless the end of the window is the end of the address
space. -/
theorem BranchesInside.refused {src : List Word} {srcAddr : Addr} (h : BranchesInside src srcAddr)
    (cap : Nat) (hfits : srcAddr.toNat + 4 * src.length < 2 ^ 64) : Refused src srcAddr cap := by
  obtain ⟨i, insn, a, hget, hto, hlow, hhigh⟩ := h
  refine .inr ⟨i, insn, hget, .inr (.inr ⟨a, hto, ?_, ?_⟩)⟩
  · rwa [BitVec.le_def]
  · rw [BitVec.lt_def, BitVec.toNat_add, BitVec.toNat_ofNat]
    omega

/-- **Self references.**  For a window that does not wrap around, `hk_arm64_relocate` refuses what
it has to just when every window with a literal load into it, and every window that ends where the
address space does and branches into itself, is refused for another reason. -/
theorem failsClosed_iff (src : List Word) (srcAddr : Addr) (cap : Nat)
    (hfits : srcAddr.toNat + 4 * src.length ≤ 2 ^ 64) :
    FailsClosed src srcAddr cap ↔
      (LoadsInside src srcAddr ∨
          BranchesInside src srcAddr ∧ srcAddr.toNat + 4 * src.length = 2 ^ 64 →
        Refused src srcAddr cap) := by
  rw [FailsClosed, relocate_eq_none_iff]
  constructor
  · rintro h (hload | ⟨hbranch, -⟩)
    · exact h (.inr hload)
    · exact h (.inl hbranch)
  · rintro h (hbranch | hload)
    · by_cases hend : srcAddr.toNat + 4 * src.length = 2 ^ 64
      · exact h (.inr ⟨hbranch, hend⟩)
      · exact hbranch.refused cap (by omega)
    · exact h (.inl hload)

/-- `LDR x0, #4` and the NOP it would read. -/
def loadsNext : List Word := [0x58000020#32, 0xD503201F#32]

theorem failsClosed_iff_branch :
    (0x1000#64).toNat + 4 * [0x14000001#32, a64Nop].length ≤ 2 ^ 64 ∧
      FailsClosed [0x14000001#32, a64Nop] 0x1000#64 64 := by
  refine ⟨by decide, (failsClosed_iff _ _ _ (by decide)).mpr fun _ ↦ ?_⟩
  exact (relocate_eq_none_iff _ _ _).mp (by decide)

/-- The copy of a load from the window reads the bytes the patch has put there. -/
theorem loadsNext_relocated : ¬ FailsClosed loadsNext 0x1000#64 64 ∧
    relocate loadsNext 0x1000#64 64 =
      some (emitLoadConst scratchLoad 0x1004#64 ++ [0xF9400220#32, 0xD503201F#32]) := by
  have hloaded : relocate loadsNext 0x1000#64 64 =
      some (emitLoadConst scratchLoad 0x1004#64 ++ [0xF9400220#32, 0xD503201F#32]) := by decide
  refine ⟨fun h ↦ ?_, hloaded⟩
  have hinside : LoadsInside loadsNext 0x1000#64 :=
    ⟨0, 0x58000020#32, 0x1004#64, 8, 0, rfl, by decide, by decide, by decide⟩
  rw [h (.inr hinside)] at hloaded
  cases hloaded

end Arm64
end HookKit
