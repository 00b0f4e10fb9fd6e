import HookKit.Lib.Block
import HookKit.Native.Arm64
import Mathlib.Logic.Function.Basic

/-!
# The processor the relocated code runs on

A fetch–decode–execute semantics of the A64 instructions that relocation is about: the PC-relative
classes, and the handful of words the relocator itself writes (branches and loads through x16 and
x17).  Every other word is a position-independent step, given by the parameter `Cpu.other`; what a
called function does is the parameter `Cpu.call`.

Code and literals live in a read-only `Text`, the bytes mapped at each address; everything else is
in the state's memory.  A load reads the text where there is some, the memory elsewhere.
-/

set_option autoImplicit false

namespace HookKit
namespace Arm64

open Block

/-! ## State and text -/

abbrev Reg := BitVec 5

/-- The registers and the memory.  `x` at 31 is not a register: it reads as zero and ignores
writes. -/
structure State where
  x : Reg → BitVec 64
  sp : BitVec 64
  v : Reg → BitVec 128
  nzcv : BitVec 4
  mem : Addr → BitVec 8

def State.readX (s : State) (r : Reg) : BitVec 64 := if r = 31#5 then 0#64 else s.x r

def State.writeX (s : State) (r : Reg) (value : BitVec 64) : State :=
  if r = 31#5 then s else { s with x := Function.update s.x r value }

def State.writeV (s : State) (r : Reg) (value : BitVec 128) : State :=
  { s with v := Function.update s.v r value }

/-- The read-only bytes mapped at each address. -/
abbrev Text := Addr → Option (BitVec 8)

/-- Byte `k` of a word, little-endian. -/
def byteOf (w : Word) (k : Nat) : BitVec 8 := w.extractLsb' (8 * k) 8

/-- The words `ws` are mapped from `base` on. -/
def Text.Holds (text : Text) (base : Addr) (ws : List Word) : Prop :=
  ∀ i, (h : i < ws.length) → ∀ k, k < 4 →
    text (base + BitVec.ofNat 64 (4 * i + k)) = some (byteOf (ws.get ⟨i, h⟩) k)

/-- A data read: the text where there is some, the memory elsewhere. -/
def readByte (text : Text) (s : State) (a : Addr) : BitVec 8 := (text a).getD (s.mem a)

/-- `n` bytes from `a` on, little-endian. -/
def readBytes (text : Text) (s : State) (a : Addr) : Nat → BitVec 128
  | 0 => 0#128
  | n + 1 => readBytes text s a n |||
      ((readByte text s (a + BitVec.ofNat 64 n)).setWidth 128 <<< (8 * n))

/-- The instruction word at `pc`; `none` when a byte of it is not mapped. -/
def fetch (text : Text) (pc : Addr) : Option Word :=
  match text pc, text (pc + 1#64), text (pc + 2#64), text (pc + 3#64) with
  | some b₀, some b₁, some b₂, some b₃ => some (b₃ ++ (b₂ ++ (b₁ ++ b₀)))
  | _, _, _, _ => none

/-! ## Instructions -/

/-- What a load reads and where it puts it. -/
inductive LoadKind where
  | w | x | sw | s | d | q
deriving DecidableEq, Repr

def LoadKind.bytes : LoadKind → Nat
  | .w | .sw | .s => 4
  | .x | .d => 8
  | .q => 16

inductive Insn where
  | adr (rd : Reg) (imm : BitVec 21)
  | adrp (rd : Reg) (imm : BitVec 21)
  | b (imm : BitVec 26)
  | bl (imm : BitVec 26)
  | bcond (cond : BitVec 4) (imm : BitVec 19)
  | cbz (wide nonzero : Bool) (rt : Reg) (imm : BitVec 19)
  | tbz (nonzero : Bool) (bit : BitVec 6) (rt : Reg) (imm : BitVec 14)
  | ldrLit (kind : LoadKind) (rt : Reg) (imm : BitVec 19)
  | prfm
  | undefinedLit
  | brScratch (rn : Reg)
  | blrScratch
  | ldrScratch (kind : LoadKind) (rt : Reg)
  | nop
  | other (word : Word)
deriving DecidableEq, Repr

def rtOf (w : Word) : Reg := w.extractLsb' 0 5

def imm19 (w : Word) : BitVec 19 := w.extractLsb' 5 19

/-- The load-literal group by `opc` and `V`. -/
def decodeLiteral (w : Word) : Insn :=
  if w &&& 0x04000000#32 = 0#32 then
    if w &&& 0xC0000000#32 = 0#32 then .ldrLit .w (rtOf w) (imm19 w)
    else if w &&& 0xC0000000#32 = 0x40000000#32 then .ldrLit .x (rtOf w) (imm19 w)
    else if w &&& 0xC0000000#32 = 0x80000000#32 then .ldrLit .sw (rtOf w) (imm19 w)
    else .prfm
  else
    if w &&& 0xC0000000#32 = 0#32 then .ldrLit .s (rtOf w) (imm19 w)
    else if w &&& 0xC0000000#32 = 0x40000000#32 then .ldrLit .d (rtOf w) (imm19 w)
    else if w &&& 0xC0000000#32 = 0x80000000#32 then .ldrLit .q (rtOf w) (imm19 w)
    else .undefinedLit

/-- The words the relocator writes that are not PC-relative: BR x16, BR x17, BLR x16 and the six
loads `LDR Rt, [x17]`. -/
def decodeScratch (w : Word) : Insn :=
  if w = 0xD61F0200#32 then .brScratch 16#5
  else if w = 0xD61F0220#32 then .brScratch 17#5
  else if w = 0xD63F0200#32 then .blrScratch
  else if w &&& 0xFFFFFFE0#32 = 0xB9400220#32 then .ldrScratch .w (rtOf w)
  else if w &&& 0xFFFFFFE0#32 = 0xF9400220#32 then .ldrScratch .x (rtOf w)
  else if w &&& 0xFFFFFFE0#32 = 0xB9800220#32 then .ldrScratch .sw (rtOf w)
  else if w &&& 0xFFFFFFE0#32 = 0xBD400220#32 then .ldrScratch .s (rtOf w)
  else if w &&& 0xFFFFFFE0#32 = 0xFD400220#32 then .ldrScratch .d (rtOf w)
  else if w &&& 0xFFFFFFE0#32 = 0x3DC00220#32 then .ldrScratch .q (rtOf w)
  else if w = a64Nop then .nop
  else .other w

def decode (w : Word) : Insn :=
  if w &&& 0x1F000000#32 = 0x10000000#32 then
    if w &&& 0x80000000#32 = 0#32 then .adr (rtOf w) (w.extractLsb' 5 19 ++ w.extractLsb' 29 2)
    else .adrp (rtOf w) (w.extractLsb' 5 19 ++ w.extractLsb' 29 2)
  else if w &&& 0x7C000000#32 = 0x14000000#32 then
    if w &&& 0x80000000#32 = 0#32 then .b (w.extractLsb' 0 26) else .bl (w.extractLsb' 0 26)
  else if w &&& 0xFF000010#32 = 0x54000000#32 then .bcond (w.extractLsb' 0 4) (imm19 w)
  else if w &&& 0x7E000000#32 = 0x34000000#32 then
    .cbz (w.getLsbD 31) (w.getLsbD 24) (rtOf w) (imm19 w)
  else if w &&& 0x7E000000#32 = 0x36000000#32 then
    .tbz (w.getLsbD 24) (w.extractLsb' 31 1 ++ w.extractLsb' 19 5) (rtOf w) (w.extractLsb' 5 14)
  else if w &&& 0x3B000000#32 = 0x18000000#32 then decodeLiteral w
  else decodeScratch w

/-! ## Execution -/

/-- The registers relocated code may leave different: x16, x17, and the return address in x30 once
a call has been made. -/
def Free (called : Bool) (r : Reg) : Prop := r = 16#5 ∨ r = 17#5 ∨ (called = true ∧ r = 30#5)

instance (called : Bool) (r : Reg) : Decidable (Free called r) :=
  inferInstanceAs (Decidable (r = 16#5 ∨ r = 17#5 ∨ (called = true ∧ r = 30#5)))

/-- The same registers and memory, the free registers apart. -/
structure Agree (called : Bool) (s t : State) : Prop where
  x : ∀ r, ¬ Free called r → s.x r = t.x r
  sp : s.sp = t.sp
  v : s.v = t.v
  nzcv : s.nzcv = t.nzcv
  mem : s.mem = t.mem

/-- The two parameters of the semantics. -/
structure Cpu where
  /-- A word that is neither PC-relative nor written by the relocator: the state after it and,
  when it leaves by a jump (RET, an indirect branch), the address it jumps to. -/
  other : Word → State → State × Option Addr
  /-- The state in which the function called at an address returns to its caller. -/
  call : Addr → State → State
  /-- A callee relies neither on the scratch registers nor on which address it returns to. -/
  call_agree : ∀ a s t, Agree true s t → Agree true (call a s) (call a t)

/-- `ConditionHolds` of the architecture. -/
def condHolds (cond nzcv : BitVec 4) : Bool :=
  let n := nzcv.getLsbD 3
  let z := nzcv.getLsbD 2
  let c := nzcv.getLsbD 1
  let v := nzcv.getLsbD 0
  let base :=
    match (cond >>> 1).toNat with
    | 0 => z
    | 1 => c
    | 2 => n
    | 3 => v
    | 4 => c && !z
    | 5 => n == v
    | 6 => n == v && !z
    | _ => true
  if cond.getLsbD 0 && decide (cond ≠ 15#4) then !base else base

/-- The address a word offset denotes. -/
def offsetFrom (pc : Addr) {w : Nat} (imm : BitVec w) : Addr := pc + imm.signExtend 64 * 4#64

def State.load (text : Text) (s : State) (kind : LoadKind) (rt : Reg) (a : Addr) : State :=
  let value := readBytes text s a kind.bytes
  match kind with
  | .w | .x => s.writeX rt (value.setWidth 64)
  | .sw => s.writeX rt ((value.setWidth 32).signExtend 64)
  | .s | .d | .q => s.writeV rt value

/-- A branch that is taken when `c` holds. -/
def branchIf (c : Bool) (target : Addr) : Exit Addr := if c then .jump target else .fall

/-- The value CBZ/CBNZ tests. -/
def cbzHolds (s : State) (wide nonzero : Bool) (rt : Reg) : Bool :=
  let value := if wide then s.readX rt else (s.readX rt &&& 0xFFFFFFFF#64)
  decide (value = 0#64) != nonzero

/-- The bit TBZ/TBNZ tests. -/
def tbzHolds (s : State) (nonzero : Bool) (bit : BitVec 6) (rt : Reg) : Bool :=
  (s.readX rt).getLsbD bit.toNat == nonzero

def exec (cpu : Cpu) (text : Text) (pc : Addr) (s : State) : Insn → Option (Exit Addr × State)
  | .adr rd imm => some (.fall, s.writeX rd (pc + imm.signExtend 64))
  | .adrp rd imm => some (.fall, s.writeX rd ((pc &&& ~~~0xFFF#64) + (imm.signExtend 64 <<< 12)))
  | .b imm => some (.jump (offsetFrom pc imm), s)
  | .bl imm => some (.fall, cpu.call (offsetFrom pc imm) (s.writeX 30#5 (pc + 4#64)))
  | .bcond cond imm => some (branchIf (condHolds cond s.nzcv) (offsetFrom pc imm), s)
  | .cbz wide nonzero rt imm => some (branchIf (cbzHolds s wide nonzero rt) (offsetFrom pc imm), s)
  | .tbz nonzero bit rt imm => some (branchIf (tbzHolds s nonzero bit rt) (offsetFrom pc imm), s)
  | .ldrLit kind rt imm => some (.fall, s.load text kind rt (offsetFrom pc imm))
  | .prfm => some (.fall, s)
  | .undefinedLit => none
  | .brScratch rn => some (.jump (s.readX rn), s)
  | .blrScratch => some (.fall, cpu.call (s.readX 16#5) (s.writeX 30#5 (pc + 4#64)))
  | .ldrScratch kind rt => some (.fall, s.load text kind rt (s.readX 17#5))
  | .nop => some (.fall, s)
  | .other w =>
    match cpu.other w s with
    | (s', none) => some (.fall, s')
    | (s', some a) => some (.jump a, s')

/-- One fetch–decode–execute cycle. -/
def step (cpu : Cpu) (text : Text) (pc : Addr) (s : State) : Option (Exit Addr × State) :=
  match fetch text pc with
  | none => none
  | some w => exec cpu text pc s (decode w)

/-- The instruction after the one at `pc`. -/
def next (pc : Addr) : Addr := pc + 4#64

/-- The addresses of a block of `count` words at `base`. -/
def InBlock (base : Addr) (count : Nat) (a : Addr) : Prop := (a - base).toNat < 4 * count

instance (base : Addr) (count : Nat) (a : Addr) : Decidable (InBlock base count a) :=
  inferInstanceAs (Decidable (_ < _))

/-- What an instruction of the window at `pc` may depend on: not on the registers that are free
before it, and not on the bytes about to be overwritten; and it may not jump back among them. -/
def Independent (cpu : Cpu) (window : Addr → Prop) (called : Bool) (pc : Addr) : Insn → Prop
  | .cbz _ _ rt _ | .tbz _ _ rt _ => ¬ Free called rt
  | .ldrLit kind _ imm => ∀ k, k < kind.bytes → ¬ window (offsetFrom pc imm + BitVec.ofNat 64 k)
  | .brScratch _ | .blrScratch | .ldrScratch _ _ => False
  | .other w => ∀ s t, Agree called s t →
      (cpu.other w s).2 = (cpu.other w t).2 ∧
      Agree called (cpu.other w s).1 (cpu.other w t).1 ∧
      ∀ a, (cpu.other w s).2 = some a → ¬ window a
  | _ => True

/-- The word is a BL. -/
def isCall (w : Word) : Bool := decide (w &&& 0xFC000000#32 = 0x94000000#32)

end Arm64
end HookKit
