import Mathlib.Data.BitVec

/-!
# The arm64 relocator

`src/native/hk_arm64.c`, the part that rewrites a function's prologue so that it can run somewhere
else.  Only the PC-relative forms of A64 have to be rewritten, and that set is closed: ADR/ADRP,
B/BL, B.cond, CBZ/CBNZ, TBZ/TBNZ and the load-literal group.  Every rewrite goes through an
absolute address, so the result does not depend on where it is placed.

Words and addresses are bit vectors, and the arithmetic is the C code's unsigned arithmetic.  A
function that writes to an output buffer and returns a byte count returns here the words it wrote;
`none` stands for the byte count 0, which is how the C code refuses.
-/

set_option autoImplicit false

namespace HookKit
namespace Arm64

/-- An instruction word. -/
abbrev Word := BitVec 32

/-- An address; also the program counter. -/
abbrev Addr := BitVec 64

/-! ## Encoders -/

def a64Nop : Word := 0xD503201F#32

/-- `A64_SCRATCH_JUMP` and `A64_SCRATCH_LOAD`: x16 and x17, call-clobbered under the procedure call
standard. -/
def scratchJump : Word := 16#32
def scratchLoad : Word := 17#32

def a64B (delta : BitVec 64) : Word :=
  0x14000000#32 ||| ((delta.sshiftRight 2) &&& 0x03FFFFFF#64).setWidth 32

/-- `LDR <Xt>, #delta`, the 64-bit load-literal. -/
def a64LdrLit64 (rt : Word) (delta : BitVec 64) : Word :=
  0x58000000#32 ||| (((delta.sshiftRight 2) &&& 0x7FFFF#64).setWidth 32 <<< 5) ||| (rt &&& 31#32)

def a64Br (rn : Word) : Word := 0xD61F0000#32 ||| ((rn &&& 31#32) <<< 5)

def a64Blr (rn : Word) : Word := 0xD63F0000#32 ||| ((rn &&& 31#32) <<< 5)

/-- `sign_extend`: all arithmetic unsigned until the final reinterpretation. -/
def signExtend (value : BitVec 64) (bits : Nat) : BitVec 64 :=
  let mask := if 64 ≤ bits then ~~~0#64 else (1#64 <<< bits) - 1#64
  let v := value &&& mask
  let sign := 1#64 <<< (bits - 1)
  let mag := (v ^^^ sign) - sign
  if mag &&& sign ≠ 0#64 then mag ||| ~~~mask else mag &&& mask

/-- A branch offset in words, scaled to bytes and added to the program counter. -/
def branchTarget (pc : Addr) (offsetWords : BitVec 64) : Addr := pc + offsetWords * 4#64

/-- imm19 occupies bits 23:5 in B.cond, CBZ/CBNZ and the load-literal group. -/
def a64SetImm19 (insn : Word) (delta : BitVec 64) : Word :=
  (insn &&& ~~~(0x7FFFF#32 <<< 5)) ||| (((delta.sshiftRight 2) &&& 0x7FFFF#64).setWidth 32 <<< 5)

/-- imm14 occupies bits 18:5 in TBZ/TBNZ. -/
def a64SetImm14 (insn : Word) (delta : BitVec 64) : Word :=
  (insn &&& ~~~(0x3FFF#32 <<< 5)) ||| (((delta.sshiftRight 2) &&& 0x3FFF#64).setWidth 32 <<< 5)

/-- The two words `memcpy` stores for a 64-bit value on a little-endian machine. -/
def quad (value : BitVec 64) : List Word := [value.setWidth 32, (value >>> 32).setWidth 32]

/-- `LDR Xn, #8 / BR Xn / .quad target`.  The veneer's scratch register varies with the target. -/
def emitAbsJump (target : Addr) : List Word :=
  let scratch := if (target >>> 2) &&& 1#64 ≠ 0#64 then scratchLoad else scratchJump
  [a64LdrLit64 scratch 8, a64Br scratch] ++ quad target

/-- `LDR Rd, #8 / B #12 / .quad value`: a 64-bit constant, no other register touched. -/
def emitLoadConst (rd : Word) (value : BitVec 64) : List Word :=
  [a64LdrLit64 rd 8, a64B 12] ++ quad value

/-! ## Relocation -/

/-- The load through x17 that replaces a literal load, by `opc` and `V`; `none` where the code
returns 0. -/
def literalLoad (opc v : Word) : Option Word :=
  if v = 0#32 then
    if opc = 0#32 then some 0xB9400000#32        -- LDR  Wt, [Xn]
    else if opc = 1#32 then some 0xF9400000#32   -- LDR  Xt, [Xn]
    else if opc = 2#32 then some 0xB9800000#32   -- LDRSW Xt, [Xn]
    else none
  else
    if opc = 0#32 then some 0xBD400000#32        -- LDR St, [Xn]
    else if opc = 1#32 then some 0xFD400000#32   -- LDR Dt, [Xn]
    else if opc = 2#32 then some 0x3DC00000#32   -- LDR Qt, [Xn]
    else none

/-- The retargeted test and the branch target of the three conditional classes: B.cond, CBZ/CBNZ
and TBZ/TBNZ. -/
def conditional (insn : Word) (pc : Addr) : Option (Word × Addr) :=
  if insn &&& 0xFF000010#32 = 0x54000000#32 ∨ insn &&& 0x7E000000#32 = 0x34000000#32 then
    some (a64SetImm19 insn 8,
      branchTarget pc (signExtend (((insn >>> 5) &&& 0x7FFFF#32).setWidth 64) 19))
  else if insn &&& 0x7E000000#32 = 0x36000000#32 then
    some (a64SetImm14 insn 8,
      branchTarget pc (signExtend (((insn >>> 5) &&& 0x3FFF#32).setWidth 64) 14))
  else none

/-- `relocate_one`: rewrite one instruction.  `patchStart` and `patchEnd` bound the bytes being
overwritten; a branch into them is refused. -/
def relocateOne (insn : Word) (pc patchStart patchEnd : Addr) : Option (List Word) :=
  if insn &&& 0x1F000000#32 = 0x10000000#32 then
    -- ADR / ADRP
    let rd := insn &&& 31#32
    let immlo := ((insn >>> 29) &&& 3#32).setWidth 64
    let immhi := ((insn >>> 5) &&& 0x7FFFF#32).setWidth 64
    let imm := signExtend ((immhi <<< 2) ||| immlo) 21
    let target :=
      if insn &&& 0x80000000#32 ≠ 0#32 then (pc &&& ~~~0xFFF#64) + (imm <<< 12) else pc + imm
    some (emitLoadConst rd target)
  else if insn &&& 0x7C000000#32 = 0x14000000#32 then
    -- B / BL
    let target := branchTarget pc (signExtend ((insn &&& 0x03FFFFFF#32).setWidth 64) 26)
    if patchStart ≤ target ∧ target < patchEnd then none
    else if insn &&& 0x80000000#32 = 0#32 then some (emitAbsJump target)
    else
      -- the call must return here, so it jumps over the literal afterwards
      some ([a64LdrLit64 scratchJump 12, a64Blr scratchJump, a64B 12] ++ quad target)
  else
    match conditional insn pc with
    | some (retargeted, target) =>
      if patchStart ≤ target ∧ target < patchEnd then none
      else some ([retargeted, a64B 20] ++ emitAbsJump target)
    | none =>
      if insn &&& 0x3B000000#32 = 0x18000000#32 then
        -- the load-literal group
        let opc := insn >>> 30
        let v := (insn >>> 26) &&& 1#32
        let rt := insn &&& 31#32
        let target := branchTarget pc (signExtend (((insn >>> 5) &&& 0x7FFFF#32).setWidth 64) 19)
        if opc = 3#32 ∧ v = 0#32 then
          some [a64Nop]   -- PRFM is a hint
        else
          match literalLoad opc v with
          | none => none
          | some load =>
            some (emitLoadConst scratchLoad target ++ [load ||| (scratchLoad <<< 5) ||| rt])
      else
        some [insn]       -- position independent

/-- `HK_A64_MAX_RELOC_BYTES`. -/
def maxRelocBytes : Nat := 24

/-- The loop of `hk_arm64_relocate` over the words still to do.  `i` is the index of the first of
them and `out` what has been written. -/
def relocateLoop (srcAddr patchEnd : Addr) (dstCapacity : Nat) :
    List Word → Nat → List Word → Option (List Word)
  | [], _, out => some out
  | insn :: rest, i, out =>
    if dstCapacity < 4 * out.length + maxRelocBytes then none
    else
      match relocateOne insn (srcAddr + BitVec.ofNat 64 (i * 4)) srcAddr patchEnd with
      | none => none
      | some emitted => relocateLoop srcAddr patchEnd dstCapacity rest (i + 1) (out ++ emitted)

/-- `hk_arm64_relocate`.  The words written to `dst`; the byte count returned is four times their
number. -/
def relocate (src : List Word) (srcAddr : Addr) (dstCapacity : Nat) : Option (List Word) :=
  if src = [] then none
  else relocateLoop srcAddr (srcAddr + BitVec.ofNat 64 (src.length * 4)) dstCapacity src 0 []

/-- An ADRP/ADD prologue: the ADRP becomes a constant load, the ADD is copied. -/
example : relocate [0xB0000008#32, 0x91000108#32] 0x1000#64 64 =
    some [0x58000048#32, 0x14000003#32, 0x2000#32, 0#32, 0x91000108#32] := by decide

end Arm64
end HookKit
