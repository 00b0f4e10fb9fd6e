import HookKit.Core.Targets
import HookKit.Core.Artifact

/-!
# The engine contract

`HKEngineInternal.h`: what an engine declares about itself and the callbacks it may implement.  A
callback is an arbitrary function of the operation it is handed and of the surroundings, which it
may change; an entry of the vtable that is NULL, or that the vtable is too short to contain, is
`none`.  The context an engine was registered with is part of its callbacks.

* `Sink` — where a commit callback records artifacts and publishes the original.
* `Engine.absent` — what the core does with a NULL engine.
* `eligibleMinimalFull`, `supportsInstallContext`, `supportsPlatform` — the routing predicates.
-/

set_option autoImplicit false

namespace HookKit

/-- `hk_engine_capabilities_t`, less the labels the enumerator reads. -/
structure Capabilities where
  engineId : Option String
  targetKinds : Mask32
  exactImageScopeTargets : Mask32
  installContexts : Mask32
  architectures : Mask32
  certifiedArchitectures : Mask32
  minimumIosVersion : Nat
  achievableReach : Mask
  originalRequirements : Mask32
  prepareEffects : Mask
  commitEffects : Mask
  nativeGrouping : Bool
  supportsCompensation : Bool
  chainableTargetKinds : Mask32

/-- `hk_verify_diag_t`. -/
structure VerifyDiag where
  errorCode : Int
  errorMessage : Option String

/-- `hk_prepare_diag_t`. -/
structure PrepareDiag where
  errorCode : Int
  errorMessage : Option String
  observedEffects : Mask

def VerifyDiag.zero : VerifyDiag := ⟨0, none⟩

def PrepareDiag.zero : PrepareDiag := ⟨0, none, 0⟩

/-- `hk_artifact_sink_t`.  `continuation` joins `has_continuation` with its value, and
`requiredPredecessor` joins `require_predecessor_match` with its. -/
structure Sink where
  ledger : Ledger
  planId : Id
  runtimeOwnerId : Id
  requestId : Id
  publishedOriginal : Ptr
  continuation : Option ContinuationInfo
  requiredPredecessor : Option Ptr
  recordFailed : Bool
  observedEffects : Mask

/-- What a callback does to a sink: the artifacts it records, in order, and the outputs it sets. -/
structure SinkWrites where
  records : List Artifact
  publishedOriginal : Option Ptr
  continuation : Option ContinuationInfo

/-- The answer of a preparation callback. -/
structure PrepareAnswer where
  result : PrepareResult
  prepared : Ptr
  diag : PrepareDiag

/-- The answer of a commit callback. -/
structure CommitAnswer where
  mutation : Mutation
  sink : SinkWrites

/-- The answer of a verification callback. -/
structure VerifyAnswer where
  result : VerifyResult
  diag : VerifyDiag

/-- The answer of a continuation inspection. -/
structure InspectAnswer where
  result : VerifyResult
  info : ContinuationInfo
  diag : VerifyDiag

/-- `hk_engine_analysis_t`, less the fields the router does not read. -/
structure EngineAnalysis where
  achievedReach : Mask
  requiredPrepareEffects : Mask
  requiredCommitEffects : Mask
  routeRank : Nat

/-- `hk_engine_operation_t`, as the callbacks of a grouped commit see it. -/
structure Operation where
  spec : HookSpec
  prepared : Ptr
  sink : Sink
  mutation : Mutation
  verifyResult : VerifyResult
  verifyDiag : VerifyDiag
  revalidated : Bool
  compensated : Bool

/-- The fields of an operation that a grouped callback leaves behind, and what it did to the
operation's sink. -/
structure OperationWrites where
  mutation : Mutation
  verifyResult : VerifyResult
  verifyDiag : VerifyDiag
  revalidated : Bool
  compensated : Bool
  sink : SinkWrites

/-- The answer of a grouped callback: its `bool`, and what it wrote into each operation. -/
structure GroupAnswer where
  accepted : Bool
  writes : Nat → OperationWrites

/-- The answer of a grouped preparation callback. -/
structure PrepareGroupAnswer where
  accepted : Bool
  writes : Nat → PrepareAnswer

/-- `hk_engine_vtable_t` together with the context it is registered with. -/
structure Engine (ε : Type) where
  describe : Capabilities
  /-- `discover`: whether the callback returned true and found the engine available. -/
  discover : Option (Env ε → Bool × Env ε)
  /-- `analyze_operation`: the analysis, when the callback returned true and found the request
  eligible. -/
  analyzeOperation : Option (HookSpec → Env ε → Option EngineAnalysis × Env ε)
  prepareOne : Option (HookSpec → Env ε → Bool × Env ε)
  commitOne : Option (HookSpec → Sink → Env ε → CommitAnswer × Env ε)
  verifyOne : Option (HookSpec → Env ε → VerifyAnswer × Env ε)
  /-- `prepare_one_ctx`: the prepared state, when the callback returned true. -/
  prepareOneCtx : Option (HookSpec → Env ε → Option Ptr × Env ε)
  commitOneCtx : Option (HookSpec → Ptr → Sink → Env ε → CommitAnswer × Env ε)
  releasePrepared : Option (Ptr → Env ε → Env ε)
  verifyOneCtx : Option (HookSpec → Ptr → Env ε → VerifyAnswer × Env ε)
  prepareOneCtxStatus : Option (HookSpec → Env ε → PrepareAnswer × Env ε)
  prepareGroupCtx : Option (List HookSpec → Env ε → PrepareGroupAnswer × Env ε)
  revalidateGroupCtx : Option (List Operation → Env ε → GroupAnswer × Env ε)
  commitGroupCtx : Option (List Operation → Env ε → GroupAnswer × Env ε)
  verifyGroupCtx : Option (List Operation → Env ε → GroupAnswer × Env ε)
  compensateGroupCtx : Option (List Operation → Env ε → GroupAnswer × Env ε)
  inspectContinuation : Option (HookSpec → Ptr → Env ε → InspectAnswer × Env ε)

/-- An engine as the core refers to it: a vtable and a context. -/
abbrev EngineRef := Nat

variable {ε : Type}

/-- A descriptor after `memset`. -/
def Capabilities.zero : Capabilities where
  engineId := none
  targetKinds := 0
  exactImageScopeTargets := 0
  installContexts := 0
  architectures := 0
  certifiedArchitectures := 0
  minimumIosVersion := 0
  achievableReach := 0
  originalRequirements := 0
  prepareEffects := 0
  commitEffects := 0
  nativeGrouping := false
  supportsCompensation := false
  chainableTargetKinds := 0

/-- An engine that implements nothing; every NULL check of the core treats a NULL engine so. -/
def Engine.absent : Engine ε where
  describe := .zero
  discover := none
  analyzeOperation := none
  prepareOne := none
  commitOne := none
  verifyOne := none
  prepareOneCtx := none
  commitOneCtx := none
  releasePrepared := none
  verifyOneCtx := none
  prepareOneCtxStatus := none
  prepareGroupCtx := none
  revalidateGroupCtx := none
  commitGroupCtx := none
  verifyGroupCtx := none
  compensateGroupCtx := none
  inspectContinuation := none

/-! ## Eligibility -/

/-- `hk_effect_forbid_bit`, by the positions of the two bits: the masks agree on bits 0 to 3 only,
and an effect without a forbid bit is never forbidden. -/
def effectForbidBit : Nat → Option Nat
  | 0 => some 0    -- target text mutation
  | 1 => some 1    -- import mutation
  | 2 => some 2    -- Objective-C metadata mutation
  | 3 => some 3    -- Swift vtable mutation
  | 5 => some 4    -- executable allocation
  | 6 => some 5    -- static continuation use
  | 12 => some 6   -- private symbol scan
  | 7 => some 7    -- provider activation
  | 8 => some 8    -- provider image load
  | 10 => some 9   -- callback registration
  | 11 => some 11  -- thread creation
  | 63 => some 13  -- unknown process mutation
  | _ => none

/-- `HK_FORBID_DYNAMIC_EXECUTABLE_MEMORY`. -/
def forbidDynamicExecutableMemory : Mask := 1#64 <<< 4

/-- `hk_effective_constraints`. -/
def effectiveConstraints (constraints : Mask) (policy : ContinuationPolicy) : Mask :=
  if policy = .noDynamicExecutableMemory then constraints ||| forbidDynamicExecutableMemory
  else constraints

/-- Whether some declared effect of one phase is forbidden. -/
def forbidden (effects constraints : Mask) : Bool :=
  (List.range 64).any fun bit ↦
    effects.getLsbD bit &&
      match effectForbidBit bit with
      | none => false
      | some forbid => constraints.getLsbD forbid

/-- `hk_engine_eligible_minimal_full`. -/
def eligibleMinimalFull (caps : Capabilities) (targetKind : TargetKind) (requiredReach : Mask)
    (requirement : OriginalRequirement) (constraints : Mask) : Bool :=
  if caps.targetKinds &&& maskBit targetKind.code = 0 then false
  else if requiredReach &&& ~~~caps.achievableReach ≠ 0 then false
  else if caps.originalRequirements ≠ 0 ∧
      caps.originalRequirements &&& maskBit requirement.code = 0 then false
  else if forbidden caps.prepareEffects constraints then false
  else !forbidden caps.commitEffects constraints

/-- `hk_engine_supports_install_context`. -/
def supportsInstallContext (caps : Capabilities) (context : InstallContext) : Bool :=
  caps.installContexts = 0 || caps.installContexts &&& maskBit context.code ≠ 0

/-- `hk_engine_supports_platform`. -/
def supportsPlatform (caps : Capabilities) (architecture : Mask32) (iosVersion : Nat)
    (testingRegistration : Bool) : Bool :=
  if testingRegistration || architecture = 0 then true
  else if caps.architectures = 0 || caps.architectures &&& architecture = 0 ||
      caps.certifiedArchitectures &&& architecture = 0 then false
  else caps.minimumIosVersion = 0 || (iosVersion ≠ 0 && iosVersion ≥ caps.minimumIosVersion)

end HookKit
