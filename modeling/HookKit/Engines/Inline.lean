import HookKit.Engines.MemoryPatch

/-!
# The terminal inline engine

`HKInlineEngine.c` and its adapter `HKInlineVtable.c`: an entry is overwritten by a branch to the
replacement, and nothing of what was there goes on running.

* `inlinePrepare`, `inlineCommit` — the two phases of the engine.
* `inlinePrepareOne`, `inlineVerifyOne` — the callbacks of the adapter around them.
* `inlinePrepare_spec` — the plan of a preparation that succeeds: a branch over what is there.
-/

set_option autoImplicit false

namespace HookKit

open Arm64

namespace Inline

/-! ## The engine -/

/-- `HK_INLINE_MAX_PATCH`. -/
def inlineMaxPatch : Nat := 16

/-- `hk_inline_status_t`. -/
inductive InlineStatus where
  | ok | invalidArgument | misaligned | targetTooShort | trapStub | preconditionFailed
  | needsContinuation
deriving DecidableEq, Repr

/-- The value of a status as an error code. -/
def InlineStatus.code : InlineStatus → Int
  | .ok => 0
  | .invalidArgument => 1
  | .misaligned => 2
  | .targetTooShort => 3
  | .trapStub => 4
  | .preconditionFailed => 5
  | .needsContinuation => 6

/-- `hk_inline_plan_t`, with the bytes that `size` covers only. -/
structure InlinePlan where
  address : Addr
  original : List Byte
  patch : List Byte
  size : Nat
  captured : Bool
deriving DecidableEq

/-- A plan after `memset`. -/
def InlinePlan.zero : InlinePlan := ⟨0, [], [], 0, false⟩

variable {ε : Type}

/-- `hk_inline_prepare`; `expected` are the bytes the request pins the entry to. -/
def inlinePrepare (m : Machine ε) (target replacement : Addr) (requirement : OriginalRequirement)
    (expected : Option (List Byte)) : InlineStatus × InlinePlan :=
  if target = 0 ∨ replacement = 0 then (.invalidArgument, .zero)
  else if expected.any fun bytes ↦ bytes.length = 0 ∨ bytes.length > inlineMaxPatch then
    (.invalidArgument, .zero)
  else if requirement ≠ .none then (.needsContinuation, .zero)
  else if target &&& 3#64 ≠ 0#64 then (.misaligned, .zero)
  else
    let size := branchSize target replacement
    if size = 0 ∨ size > inlineMaxPatch then (.invalidArgument, .zero)
    else
      -- the only read of the target, and what commit revalidates against
      let original := m.readBytes target size
      let plan := { InlinePlan.zero with original := original }
      if expected.any fun bytes ↦ original.take (min bytes.length size) ≠
          bytes.take (min bytes.length size) then
        (.preconditionFailed, plan)
      else if (wordsOfBytes original).head?.any insnIsTrap then (.trapStub, plan)
      -- a terminator in the last place ends the function where the patch ends
      else if size > 4 ∧ hasEarlyTerminator (wordsOfBytes (original.take (size - 4))) then
        (.targetTooShort, plan)
      else
        let patch := bytesOfWords (emitBranch target replacement)
        if patch.length ≠ size then (.invalidArgument, plan)
        else (.ok, ⟨target, original, patch, size, true⟩)

/-- `hk_inline_write_fn` with its context. -/
abbrev InlineWrite (ε : Type) := Addr → List Byte → Machine ε → Mutation × Machine ε

/-- `HK_EFFECT_TARGET_TEXT_MUTATION`. -/
def effectTargetTextMutation : Mask := 1#64

/-- The artifact of a commit. -/
def inlineArtifact (plan : InlinePlan) (mutation : Mutation) : MemoryPatch.MemoryArtifact where
  state := if mutation = .complete then .committed else .partiallyApplied
  effects := effectTargetTextMutation
  engineId := ⟨some "inline-terminal", 15⟩
  address := plan.address
  size := plan.size
  originalBytes := plan.original
  mechanicallyReversible := true
  safeToReverseAfterActivation := decide (mutation = .complete)

/-- `hk_inline_commit`. -/
def inlineCommit (plan : InlinePlan) (write : Option (InlineWrite ε))
    (s : MemoryPatch.PatchState ε) :
    Mutation × MemoryPatch.PatchState ε :=
  match write with
  | none => (.none, s)
  | some write =>
    if !plan.captured ∨ plan.address = 0 ∨ plan.size = 0 ∨
      plan.size > inlineMaxPatch then (.none, s)
    else if s.machine.readBytes plan.address plan.size ≠ plan.original then (.none, s)
    else
      let answer := write plan.address plan.patch s.machine
      (answer.1, {
        machine := answer.2
        sink := if answer.1 = .none then s.sink
          else s.sink.map (· ++ [inlineArtifact plan answer.1])
        calls := s.calls ++ [⟨plan.address, plan.patch, answer.1⟩] })

/-! ## What is prepared -/

/-- A preparation that succeeds: a branch to the replacement, over the bytes that are there. -/
theorem inlinePrepare_spec {m : Machine ε} {target replacement : Addr}
    {requirement : OriginalRequirement} {expected : Option (List Byte)} {plan : InlinePlan}
    (h : inlinePrepare m target replacement requirement expected = (.ok, plan)) :
    target ≠ 0 ∧ plan = ⟨target, m.readBytes target (branchSize target replacement),
      bytesOfWords (emitBranch target replacement), branchSize target replacement, true⟩ := by
  rw [inlinePrepare] at h
  split at h
  · cases h
  rename_i hnull
  split at h
  · cases h
  split at h
  · cases h
  split at h
  · cases h
  dsimp only at h
  iterate 5
    split at h
    · cases h
  cases h
  exact ⟨fun htarget ↦ hnull (.inl htarget), rfl⟩

/-! ## The adapter -/

/-- `hk_inline_engine_ctx_t`; the catalog is in the host. -/
structure InlineEngineCtx (ε : Type) where
  write : Option (InlineWrite ε)
  allowNonAtomicEntryPatch : Bool

/-- The diagnosis of `inline_classify`. -/
def InlineStatus.message : InlineStatus → String
  | .misaligned => "target is not 4-byte aligned, so it is not an A64 entry point"
  | .targetTooShort => "function ends inside the overwrite window; the patch would run past it"
  | .trapStub => "entry is a trap stub (BRK/HLT/UDF); there is no original to replace"
  | .preconditionFailed => "prologue does not match the bytes the request pinned"
  | .needsContinuation => "terminal inline cannot provide an original; use a relocating engine"
  | .invalidArgument | .ok => "invalid inline target"

/-- `HK_INLINE_DIAG_NON_ATOMIC_PATCH`. -/
def inlineDiagNonAtomicPatch : Int := 200

/-- `inline_prepare_one_ctx_status`. -/
def inlinePrepareOne (host : Host ε) (ctx : InlineEngineCtx ε) (spec : HookSpec) (m : Machine ε) :
    PrepareResult × Option InlinePlan × PrepareDiag × Machine ε :=
  match spec.target with
  | .address target =>
    let address := host.targetAddress target
    match host.imageScope target address with
    | some (code, message) => (.failed, none, ⟨code, some message, 0⟩, m)
    | none =>
      match host.malloc m with
      | (false, m) => (.failed, none, ⟨0, some "out of memory", 0⟩, m)
      | (true, m) =>
        match inlinePrepare m address (host.stripCode (BitVec.ofNat 64 spec.replacement))
            spec.originalRequirement target.pinned with
        | (.ok, plan) =>
          if plan.size ≠ 4 ∧ !ctx.allowNonAtomicEntryPatch then
            (.failed, none, ⟨inlineDiagNonAtomicPatch, some
              "entry patch would not be a single aligned store; a thread could enter the function part-patched", 0⟩,
              m)
          else (.ok, some plan, .zero, m)
        | (status, _) => (.failed, none, ⟨status.code, some status.message, 0⟩, m)
  | _ =>
    (.failed, none,
      ⟨0, some "inline engine invoked without a writer or with a non-address target", 0⟩, m)

/-- `inline_verify_one_ctx`, for a plan. -/
def inlineVerifyOne (plan : InlinePlan) (m : Machine ε) : VerifyResult × VerifyDiag :=
  if m.readBytes plan.address plan.size ≠ plan.patch then
    (.failed, ⟨0, some "inline patch readback does not match the emitted branch"⟩)
  else (.ok, .zero)

end Inline

end HookKit
