import Mathlib.Data.BitVec

/-!
# The values the core passes around

The enumerations, masks and records of the public headers (`HookKitBase.h`, `HookKitResults.h`,
`HookKitPlan.h`) that the plan lifecycle reads and writes.

* A pointer is a number and `0` is NULL; an identifier is the counter of `hk_id_generate`, and `0`
  is the zeroed identifier.
* A C string is an `Option String`: a string view whose data is NULL is `none`.
* Masks are bit vectors of the width the headers give them.
-/

set_option autoImplicit false

namespace HookKit

/-- A pointer or `uintptr_t`; `0` is NULL. -/
abbrev Ptr := Nat

/-- `hk_id_t`: the process nonce is the same for all of them, so the counter is left. -/
abbrev Id := Nat

/-- A byte. -/
abbrev Byte := BitVec 8

/-- `SIZE_MAX`. -/
def sizeMax : Nat := 2 ^ 64 - 1

/-! ## Statuses and states -/

/-- `hk_status_t`. -/
inductive Status where
  | ok | invalidArgument | invalidState | outOfMemory | unavailable | internalError | shuttingDown
deriving DecidableEq, Repr

/-- The value of a status as an error code. -/
def Status.code : Status → Int
  | .ok => 0
  | .invalidArgument => 1
  | .invalidState => 2
  | .outOfMemory => 3
  | .unavailable => 4
  | .internalError => 5
  | .shuttingDown => 6

/-- `hk_outcome_t`. -/
inductive Outcome where
  | unanalyzed | noRoute | analyzed | prepared | pending | active | alreadyActive | stalePlan
  | conflict | failedSafe | failedPartial | failedUnknown | compensated | invalidated
deriving DecidableEq, Repr

/-- `hk_mutation_state_t`. -/
inductive Mutation where
  | none | complete | partly | unknown
deriving DecidableEq, Repr

/-- `hk_plan_state_t`. -/
inductive PlanState where
  | draft | analyzed | preparing | prepared | committing | committed | partly | failed
  | invalidated | discarded
deriving DecidableEq, Repr

/-- `hk_prepare_result_t`. -/
inductive PrepareResult where
  | ok | failed | notApplicable
deriving DecidableEq, Repr

/-- `hk_verify_result_t`. -/
inductive VerifyResult where
  | unavailable | ok | failed
deriving DecidableEq, Repr

/-! ## Requests -/

/-- `hk_target_kind_t`. -/
inductive TargetKind where
  | functionSymbol | functionAddress | objcMethod | memoryPatch | swiftVtable
deriving DecidableEq, Repr

/-- The enumerator's value. -/
def TargetKind.code : TargetKind → Nat
  | .functionSymbol => 0
  | .functionAddress => 1
  | .objcMethod => 2
  | .memoryPatch => 3
  | .swiftVtable => 4

/-- `hk_original_requirement_t`. -/
inductive OriginalRequirement where
  | none | directPredecessor | callableContinuation
deriving DecidableEq, Repr

/-- The enumerator's value. -/
def OriginalRequirement.code : OriginalRequirement → Nat
  | .none => 0
  | .directPredecessor => 1
  | .callableContinuation => 2

/-- `hk_continuation_policy_t`. -/
inductive ContinuationPolicy where
  | any | noDynamicExecutableMemory | forbidden
deriving DecidableEq, Repr

/-- `hk_availability_t`. -/
inductive Availability where
  | requiredNow | optionalIfPresent | deferUntilAvailable
deriving DecidableEq, Repr

/-- `hk_operation_role_t`. -/
inductive OperationRole where
  | optional | mandatory
deriving DecidableEq, Repr

/-- `hk_install_context_t`. -/
inductive InstallContext where
  | earlyProcess | mainThreadSerialized | runtimeSerialized | arbitraryRuntime
deriving DecidableEq, Repr

/-- The enumerator's value. -/
def InstallContext.code : InstallContext → Nat
  | .earlyProcess => 0
  | .mainThreadSerialized => 1
  | .runtimeSerialized => 2
  | .arbitraryRuntime => 3

/-! ## Masks -/

/-- `hk_reachability_t`, `hk_effects_t` and `hk_constraints_t` are all 64-bit masks. -/
abbrev Mask := BitVec 64

/-- `hk_target_kind_mask_t` and the other 32-bit masks of the engine descriptor. -/
abbrev Mask32 := BitVec 32

/-- `HK_TARGET_KIND_BIT`, `HK_ORIGINAL_REQ_BIT` and `HK_INSTALL_CONTEXT_BIT`. -/
def maskBit (code : Nat) : Mask32 := 1#32 <<< code

/-- `HK_REACH_EXACT_IMAGE_SCOPE`. -/
def reachExactImageScope : Mask := 1#64 <<< 5

/-! ## Continuations and results -/

/-- `hk_continuation_kind_t`. -/
inductive ContinuationKind where
  | none | directPredecessor | static | dynamic | providerInternal | unknown
deriving DecidableEq, Repr

/-- `hk_continuation_info_t`, as far as the core looks into it; it copies the rest along. -/
structure ContinuationInfo where
  structSize : Nat
  structVersion : Nat
  kind : ContinuationKind
  address : Ptr
deriving DecidableEq, Repr

/-- `sizeof(hk_continuation_info_t)`. -/
def sizeofContinuationInfo : Nat := 88

/-- `HK_ABI_VERSION_3_0`. -/
def abiVersion : Nat := 0x00030000

/-- A description after `memset`. -/
def ContinuationInfo.zero : ContinuationInfo := ⟨0, 0, .none, 0⟩

/-- The description of a hook that has no continuation. -/
def ContinuationInfo.absent : ContinuationInfo := ⟨sizeofContinuationInfo, abiVersion, .none, 0⟩

/-- `hk_hook_result_t`. -/
structure HookResult where
  runtimeOwnerId : Id
  planId : Id
  requestId : Id
  installedId : Id
  imageGeneration : Nat
  installedGeneration : Nat
  outcome : Outcome
  mutation : Mutation
  achievedReach : Mask
  unmetPreferredReach : Mask
  declaredPrepareEffects : Mask
  observedPrepareEffects : Mask
  declaredCommitEffects : Mask
  observedCommitEffects : Mask
  continuation : ContinuationInfo
  originalAvailable : Bool
  verified : Bool
  retryable : Bool
  currentlyValid : Bool
  matchedLocations : Nat
  modifiedLocations : Nat
  diagnosticEngineId : Option String
  errorDomain : Option String
  errorCode : Int
  errorMessage : Option String
  artifactCount : Nat
deriving Repr

/-- A result after `memset`. -/
def HookResult.zero : HookResult where
  runtimeOwnerId := 0
  planId := 0
  requestId := 0
  installedId := 0
  imageGeneration := 0
  installedGeneration := 0
  outcome := .unanalyzed
  mutation := .none
  achievedReach := 0
  unmetPreferredReach := 0
  declaredPrepareEffects := 0
  observedPrepareEffects := 0
  declaredCommitEffects := 0
  observedCommitEffects := 0
  continuation := .zero
  originalAvailable := false
  verified := false
  retryable := false
  currentlyValid := false
  matchedLocations := 0
  modifiedLocations := 0
  diagnosticEngineId := none
  errorDomain := none
  errorCode := 0
  errorMessage := none
  artifactCount := 0

/-- The four fields in which the core reports an error of its own. -/
def HookResult.withError (out : HookResult) (domain : String) (code : Int) (message : String) :
    HookResult :=
  { out with errorDomain := some domain, errorCode := code, errorMessage := some message }

/-- `hk_hook_result_refused_cleanly`. -/
def HookResult.refusedCleanly (out : HookResult) : Bool :=
  out.mutation = .none && (out.outcome = .noRoute || out.outcome = .failedSafe)

end HookKit
