import HookKit.Core.Engine
import HookKit.Native.Arm64Branch

/-!
# The relocating inline engine

`HKRelocInlineEngine.c` and its adapter `HKRelocInlineVtable.c`: an entry is overwritten by a
branch, and what it displaced goes on running from a page of its own.  The page is laid out as

    [0, thunk)   a jump to the replacement, for entries that reach the page but not the replacement
    [thunk, …)   the body: the relocated prologue and a jump back behind the patch

* `Machine` — the memory of the process and everything else a seam may look at or change.
* `relocPrepare`, `relocCommit` — the two phases of the engine.
* `relocPrepareOne`, `relocCommitOne`, `relocReleasePrepared` — the callbacks of the adapter.

The history of a page is written down as it happens: obtained, given back, branched to.  The
artifacts the engine records do not decide anything here and are left out.
-/

set_option autoImplicit false

namespace HookKit

open Arm64

/-! ## Memory -/

/-- The memory of the process, the counter of `hk_id_generate`, and whatever else the seams see. -/
structure Machine (ε : Type) where
  mem : Addr → Byte
  nextId : Id
  env : ε

namespace Machine

variable {ε : Type}

/-- `memcpy` out of the memory. -/
def readBytes (m : Machine ε) (a : Addr) (count : Nat) : List Byte :=
  (List.range count).map fun i ↦ m.mem (a + BitVec.ofNat 64 i)

/-- `memcpy` into the memory. -/
def store (m : Machine ε) (a : Addr) (bytes : List Byte) : Machine ε :=
  { m with mem := fun x ↦ (bytes[(x - a).toNat]?).getD (m.mem x) }

/-- The memory as code. -/
def text (m : Machine ε) : Text := fun a ↦ some (m.mem a)

/-- `hk_id_generate`. -/
def freshId (m : Machine ε) : Id × Machine ε := (m.nextId, { m with nextId := m.nextId + 1 })

end Machine

/-- The bytes of words, as they lie in memory. -/
def bytesOfWords (ws : List Word) : List Byte :=
  ws.flatMap fun w ↦ [byteOf w 0, byteOf w 1, byteOf w 2, byteOf w 3]

/-- The words of bytes; what does not fill a word is dropped. -/
def wordsOfBytes : List Byte → List Word
  | b₀ :: b₁ :: b₂ :: b₃ :: rest => (b₃ ++ (b₂ ++ (b₁ ++ b₀))) :: wordsOfBytes rest
  | _ => []

/-! ## Seams and plans -/

/-- `hk_mapping_kind_t`. -/
inductive MappingKind where
  | none | imageText | imageData | sharedCache | staticHookkitSection | anonymous | providerOwned
  | unknown
deriving DecidableEq, Repr

/-- `hk_vm_protection_t`. -/
structure VmProtection where
  read : Bool
  write : Bool
  execute : Bool
deriving DecidableEq, Repr

/-- `hk_artifact_mapping_t`. -/
structure ArtifactMapping where
  mappingId : Id
  kind : MappingKind
  base : Addr
  size : BitVec 64
  protection : VmProtection
deriving DecidableEq, Repr

/-- A mapping after `memset`. -/
def ArtifactMapping.zero : ArtifactMapping := ⟨0, .none, 0, 0, ⟨false, false, false⟩⟩

/-- The page seams; a NULL function is `none`. -/
structure PageSeams (ε : Type) where
  /-- `hk_reloc_alloc_fn`: the page, or 0, and the mapping it lies in. -/
  alloc : Option (Nat → Addr → Machine ε → (Addr × ArtifactMapping) × Machine ε)
  /-- `hk_reloc_seal_fn`. -/
  sealPage : Option (Addr → Nat → Machine ε → Bool × Machine ε)
  /-- `hk_reloc_free_fn`. -/
  freePage : Option (Addr → Nat → Machine ε → Machine ε)

/-- `HK_RELOC_THUNK_BYTES`, `HK_RELOC_MAX_DISPLACED`, `HK_RELOC_BODY_BYTES`, `HK_RELOC_PAGE_BYTES`
and `HK_RELOC_MAX_PATCH`. -/
def relocThunkBytes : Nat := 16
def relocMaxDisplaced : Nat := 4
def relocBodyBytes : Nat := relocMaxDisplaced * maxRelocBytes + 16
def relocPageBytes : Nat := relocThunkBytes + relocBodyBytes
def relocMaxPatch : Nat := 16

/-- `hk_reloc_status_t`. -/
inductive RelocStatus where
  | ok | invalidArgument | misaligned | targetTooShort | trapStub | preconditionFailed
  | unrelocatable | noTrampoline
deriving DecidableEq, Repr

/-- The value of a status as an error code. -/
def RelocStatus.code : RelocStatus → Int
  | .ok => 0
  | .invalidArgument => 1
  | .misaligned => 2
  | .targetTooShort => 3
  | .trapStub => 4
  | .preconditionFailed => 5
  | .unrelocatable => 6
  | .noTrampoline => 7

/-- `hk_reloc_plan_t`. -/
structure RelocPlan where
  address : Addr
  replacement : Addr
  trampoline : Addr
  trampolineSize : Nat
  mapping : ArtifactMapping
  originalEntry : Addr
  original : List Byte
  patch : List Byte
  patchSize : Nat
  displacedCount : Nat
  atomicEntryPatch : Bool
  captured : Bool
  activated : Bool

/-- A plan after `memset`. -/
def RelocPlan.zero : RelocPlan where
  address := 0
  replacement := 0
  trampoline := 0
  trampolineSize := 0
  mapping := .zero
  originalEntry := 0
  original := []
  patch := []
  patchSize := 0
  displacedCount := 0
  atomicEntryPatch := false
  captured := false
  activated := false

/-! ## The history of a page -/

/-- What can happen to a page. -/
inductive PageEvent where
  /-- The allocator handed it out. -/
  | obtained (page : Addr)
  /-- It was given back. -/
  | freed (page : Addr)
  /-- The target was written so that it branches to the page, and the write reported this. -/
  | written (page : Addr) (mutation : Mutation)
  /-- A provider was told to hook the target whose continuation is on the page. -/
  | provided (page : Addr)
deriving DecidableEq

/-- The process as one hook sees it: the machine, and what has happened to the hook's pages. -/
structure Process (ε : Type) where
  machine : Machine ε
  history : List PageEvent

variable {ε : Type}

/-- Run a function of the machine. -/
def Process.run {α : Type} (p : Process ε) (f : Machine ε → α × Machine ε) : α × Process ε :=
  let (a, m) := f p.machine
  (a, { p with machine := m })

def Process.setMachine (p : Process ε) (m : Machine ε) : Process ε := { p with machine := m }

def Process.log (p : Process ε) (e : PageEvent) : Process ε := { p with history := e :: p.history }

namespace PageSeams

/-- Ask for a page.  A page is obtained when the answer is not 0. -/
def allocPage (alloc : Nat → Addr → Machine ε → (Addr × ArtifactMapping) × Machine ε)
    (near : Addr) (p : Process ε) : (Addr × ArtifactMapping) × Process ε :=
  let (answer, p) := p.run (alloc relocPageBytes near)
  (answer, if answer.1 = 0 then p else p.log (.obtained answer.1))

/-- Give a page back, where there is a seam to do so. -/
def giveBack (seams : PageSeams ε) (page : Addr) (size : Nat) (p : Process ε) : Process ε :=
  match seams.freePage with
  | none => p
  | some free => (p.setMachine (free page size p.machine)).log (.freed page)

end PageSeams

/-- `reloc_release_and_fail`. -/
def relocReleaseAndFail (seams : PageSeams ε) (page : Addr)
    (status : RelocStatus) (plan : RelocPlan)
    (p : Process ε) : RelocStatus × RelocPlan × Process ε :=
  (status, plan, if page = 0 then p else seams.giveBack page relocPageBytes p)

/-! ## Preparation -/

/-- Whether the allocator's answer can be used. -/
def pageUsable (page : Addr) (mapping : ArtifactMapping) : Bool :=
  page ≠ 0 && page &&& 3#64 = 0#64 &&
    (mapping.kind = .staticHookkitSection || mapping.kind = .anonymous) &&
    mapping.base ≠ 0 && mapping.base ≤ page && mapping.size ≥ BitVec.ofNat 64 relocPageBytes &&
    mapping.size ≤ BitVec.allOnes 64 - mapping.base &&
    page - mapping.base ≤ mapping.size - BitVec.ofNat 64 relocPageBytes

/-- The entry patch: how long it is, where it branches to, and whether it is one aligned store.  A
continuation has no patch of its own and takes the length the caller audited. -/
def choosePatch (target replacement thunk : Addr) (overwriteSize : Nat) : Nat × Addr × Bool :=
  if overwriteSize ≠ 0 then (overwriteSize, 0, false)
  else if branchSize target thunk = 4 then (4, thunk, true)
  else
    (branchSize target replacement, replacement, decide (branchSize target replacement = 4))

/-- The words of the body: the relocated window and the jump back, where both fit. -/
def relocBody (window : List Word) (target bodyAddr : Addr) (patchSize : Nat) :
    Option (List Word) :=
  match relocate window target relocBodyBytes with
  | none => none
  | some relocated =>
    let back := emitBranch (bodyAddr + BitVec.ofNat 64 (4 * relocated.length))
      (target + BitVec.ofNat 64 patchSize)
    if 4 * (relocated.length + back.length) > relocBodyBytes then none
    else some (relocated ++ back)

/-- The part of `reloc_prepare` that has a usable page: everything up to sealing it. -/
def relocBuild (target replacement : Addr) (overwriteSize : Nat) (expected : Option (List Byte))
    (sealPage : Addr → Nat → Machine ε → Bool × Machine ε) (seams : PageSeams ε) (page : Addr)
    (mapping : ArtifactMapping) (p : Process ε) : RelocStatus × RelocPlan × Process ε :=
  let body := page + BitVec.ofNat 64 relocThunkBytes
  let (patchSize, dest, atomic) := choosePatch target replacement page overwriteSize
  let plan := { RelocPlan.zero with atomicEntryPatch := atomic }
  if patchSize = 0 ∨ patchSize > relocMaxPatch then
    relocReleaseAndFail seams page .invalidArgument plan p
  else if patchSize / 4 = 0 ∨ patchSize / 4 > relocMaxDisplaced then
    relocReleaseAndFail seams page .invalidArgument plan p
  else
    -- the only read of the target, and what commit revalidates against
    let original := p.machine.readBytes target patchSize
    let plan := { plan with original := original }
    let window := wordsOfBytes original
    if expected.any fun bytes ↦ original.take (min bytes.length patchSize) ≠
        bytes.take (min bytes.length patchSize) then
      relocReleaseAndFail seams page .preconditionFailed plan p
    else if window.head?.any insnIsTrap then relocReleaseAndFail seams page .trapStub plan p
    else if hasEarlyTerminator window then relocReleaseAndFail seams page .targetTooShort plan p
    else
      match relocBody window target body patchSize with
      | none => relocReleaseAndFail seams page .unrelocatable plan p
      | some words =>
        let thunk := if overwriteSize = 0 then emitBranch page replacement else []
        if overwriteSize = 0 ∧ (thunk = [] ∨ 4 * thunk.length > relocThunkBytes) then
          relocReleaseAndFail seams page .unrelocatable plan p
        else
          let p := p.setMachine (p.machine.store page (bytesOfWords thunk))
          let p := p.setMachine (p.machine.store body (bytesOfWords words))
          match p.run (sealPage page relocPageBytes) with
          | (false, p) => relocReleaseAndFail seams page .noTrampoline plan p
          | (true, p) =>
            let patch := if overwriteSize = 0 then emitBranch target dest else []
            if overwriteSize = 0 ∧ 4 * patch.length ≠ patchSize then
              relocReleaseAndFail seams page .invalidArgument plan p
            else
              let (mappingId, p) := p.run Machine.freshId
              (.ok, { plan with
                address := target
                replacement := replacement
                trampoline := page
                trampolineSize := relocPageBytes
                mapping := { mapping with
                  mappingId := mappingId, protection := ⟨true, false, true⟩ }
                -- not the page: its front would lead back to the replacement
                originalEntry := body
                patch := bytesOfWords patch
                patchSize := patchSize
                displacedCount := patchSize / 4
                captured := true }, p)

/-- `reloc_prepare`.  `overwriteSize` is 0 for a hook and the length of the audited window for a
continuation; `expected` are the bytes the request pins the entry to. -/
def relocPrepareWith (target replacement : Addr) (overwriteSize : Nat)
    (expected : Option (List Byte))
    (seams : PageSeams ε) (p : Process ε) : RelocStatus × RelocPlan × Process ε :=
  match seams.alloc, seams.sealPage with
  | some alloc, some sealPage =>
    if target = 0 ∨ (overwriteSize = 0 ∧ replacement = 0) ∨
        (overwriteSize ≠ 0 ∧ (overwriteSize > relocMaxPatch ∨ overwriteSize % 4 ≠ 0)) then
      (.invalidArgument, .zero, p)
    else if expected.any fun bytes ↦ bytes.length = 0 ∨ bytes.length > relocMaxPatch then
      (.invalidArgument, .zero, p)
    else if target &&& 3#64 ≠ 0#64 then (.misaligned, .zero, p)
    else
      let ((page, mapping), p) := PageSeams.allocPage alloc target p
      if !pageUsable page mapping then relocReleaseAndFail seams page .noTrampoline .zero p
      else relocBuild target replacement overwriteSize expected sealPage seams page mapping p
  | _, _ => (.invalidArgument, .zero, p)

/-- `hk_reloc_prepare`. -/
def relocPrepare (target replacement : Addr) (expected : Option (List Byte)) (seams : PageSeams ε)
    (p : Process ε) : RelocStatus × RelocPlan × Process ε :=
  relocPrepareWith target replacement 0 expected seams p

/-- `hk_reloc_prepare_continuation`. -/
def relocPrepareContinuation (target : Addr) (overwriteSize : Nat) (expected : Option (List Byte))
    (seams : PageSeams ε) (p : Process ε) : RelocStatus × RelocPlan × Process ε :=
  relocPrepareWith target 0 overwriteSize expected seams p

/-! ## Commit -/

/-- `hk_reloc_write_fn`. -/
abbrev RelocWrite (ε : Type) := Addr → List Byte → Machine ε → Mutation × Machine ε

/-- `hk_reloc_commit`. -/
def relocCommit (write : Option (RelocWrite ε)) (seams : PageSeams ε) (plan : RelocPlan)
    (p : Process ε) : Mutation × RelocPlan × Process ε :=
  if plan.activated then (.unknown, plan, p)
  else
    match write with
    | none => (.none, plan, p)
    | some write =>
      if !plan.captured ∨ plan.address = 0 ∨ plan.patchSize = 0 ∨
        plan.patchSize > relocMaxPatch then
        (.none, plan, p)
      else
        let (mutation, p) :=
          if p.machine.readBytes plan.address plan.patchSize = plan.original then
            let (mutation, p) := p.run (write plan.address plan.patch)
            (mutation, p.log (.written plan.trampoline mutation))
          else (.none, p)
        if mutation = .none then
          -- refused before touching the entry, so nothing can be running in the page
          if seams.freePage.isSome ∧ plan.trampoline ≠ 0 then
            (.none,
              { plan with
                captured := false, trampoline := 0, trampolineSize := 0, originalEntry := 0
                mapping := .zero },
              seams.giveBack plan.trampoline plan.trampolineSize p)
          else (.none, plan, p)
        else (mutation, { plan with activated := true }, p)

/-! ## The adapter -/

/-- What the adapters take from the platform. -/
structure Host (ε : Type) where
  /-- `hk_pac_strip_code`. -/
  stripCode : Addr → Addr
  /-- `hk_pac_make_callable`. -/
  makeCallable : Addr → Addr
  /-- `malloc` and `calloc`: whether there was memory. -/
  malloc : Machine ε → Bool × Machine ε
  /-- `hk_image_scope_check` with its catalog: the code of the refusal and its description. -/
  imageScope : AddressTarget → Addr → Option (Int × String)

/-- `hk_reloc_engine_ctx_t`. -/
structure RelocEngineCtx (ε : Type) where
  seams : PageSeams ε
  write : Option (RelocWrite ε)
  allowNonAtomicEntryPatch : Bool

/-- The bytes a request pins the entry to. -/
def AddressTarget.pinned (target : AddressTarget) : Option (List Byte) :=
  target.expectedInitialBytes.data.map fun bytes ↦ bytes.take target.expectedInitialBytes.size

/-- The address a request names, without what the caller allows to be stripped. -/
def Host.targetAddress (host : Host ε) (target : AddressTarget) : Addr :=
  let address := BitVec.ofNat 64 target.address
  if target.mayStripPacOrThumbState then host.stripCode address else address

/-- The diagnosis of `reloc_classify`. -/
def RelocStatus.message : RelocStatus → String
  | .misaligned => "target is not 4-byte aligned, so it is not an A64 entry point"
  | .targetTooShort =>
    "a displaced instruction ends the function; the relocated copy would never reach the jump back"
  | .trapStub => "entry is a trap stub (BRK/HLT/UDF); there is no original to preserve"
  | .preconditionFailed => "prologue does not match the bytes the request pinned"
  | .unrelocatable => "a displaced instruction cannot be rewritten to run from a new address"
  | .noTrampoline => "could not obtain or seal an executable page for the trampoline"
  | .invalidArgument | .ok => "invalid relocating-inline target"

/-- `HK_EFFECT_EXECUTABLE_ALLOCATION` and `HK_EFFECT_STATIC_CONTINUATION_USE`. -/
def effectExecutableAllocation : Mask := 1#64 <<< 5
def effectStaticContinuationUse : Mask := 1#64 <<< 6

/-- The effect of using a page. -/
def MappingKind.effect (kind : MappingKind) : Mask :=
  if kind = .staticHookkitSection then effectStaticContinuationUse else effectExecutableAllocation

/-- `HK_RELOC_DIAG_NON_ATOMIC_PATCH`. -/
def relocDiagNonAtomicPatch : Int := 200

/-- `reloc_prepare_one_ctx_status`. -/
def relocPrepareOne (host : Host ε) (ctx : RelocEngineCtx ε) (spec : HookSpec) (p : Process ε) :
    PrepareResult × Option RelocPlan × PrepareDiag × Process ε :=
  match spec.target with
  | .address target =>
    let address := host.targetAddress target
    match host.imageScope target address with
    | some (code, message) => (.failed, none, ⟨code, some message, 0⟩, p)
    | none =>
      match p.run host.malloc with
      | (false, p) => (.failed, none, ⟨0, some "out of memory", 0⟩, p)
      | (true, p) =>
        match relocPrepare address (host.stripCode (BitVec.ofNat 64 spec.replacement)) target.pinned
            ctx.seams p with
        | (.ok, plan, p) =>
          if !plan.atomicEntryPatch ∧ !ctx.allowNonAtomicEntryPatch then
            (.failed, none, ⟨relocDiagNonAtomicPatch, some
              "entry patch would not be a single aligned store; a thread could enter the function part-patched", 0⟩,
              if plan.trampoline = 0 then p
              else ctx.seams.giveBack plan.trampoline plan.trampolineSize p)
          else
            (.ok, some { plan with replacement := BitVec.ofNat 64 spec.replacement },
              ⟨0, none, plan.mapping.kind.effect⟩, p)
        | (status, _, p) => (.failed, none, ⟨status.code, some status.message, 0⟩, p)
  | _ =>
    (.failed, none,
      ⟨0, some "relocating inline engine invoked without seams or with a non-address target", 0⟩, p)

/-- `hk_reloc_describe_continuation`; a plan that holds nothing describes nothing. -/
def relocDescribeContinuation (host : Host ε) (plan : RelocPlan) : ContinuationInfo :=
  if !plan.captured then ⟨sizeofContinuationInfo, abiVersion, .none, 0⟩
  else
    { structSize := sizeofContinuationInfo
      structVersion := abiVersion
      kind := if plan.mapping.kind = .staticHookkitSection then .static else .dynamic
      address := (host.makeCallable plan.originalEntry).toNat }

/-- `reloc_commit_one_ctx`: the mutation and the original that is published. -/
def relocCommitOne (host : Host ε) (ctx : RelocEngineCtx ε) (plan : RelocPlan) (p : Process ε) :
    Mutation × Option Addr × RelocPlan × Process ε :=
  let (mutation, plan, p) := relocCommit ctx.write ctx.seams plan p
  (mutation, if mutation = .complete then some (host.makeCallable plan.originalEntry) else none,
    plan, p)

/-- `reloc_release_prepared`. -/
def relocReleasePrepared (ctx : RelocEngineCtx ε) (plan : RelocPlan) (p : Process ε) : Process ε :=
  if !plan.activated ∧ plan.trampoline ≠ 0 then
    ctx.seams.giveBack plan.trampoline plan.trampolineSize p
  else p

end HookKit
