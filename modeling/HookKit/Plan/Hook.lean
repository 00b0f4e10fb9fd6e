import HookKit.Core.World

/-!
# A hook and its engine

The part of `HKPlan.c` that deals with one hook at a time: how it reaches the engine analysis chose
for it, what the core makes of the engine's answers, and the critical section of a one-hook commit.
Plans and the pending queue both go through these functions.

* `dispatchPrepare`, `validatePrepareEffects` — preparation.
* `finishCommitAttempt` — the roll-up after a commit callback.
* `commitOneHook` — everything a one-hook commit does under the ownership lock.
-/

set_option autoImplicit false

namespace HookKit

/-- `struct hk_hook`, less the owned copies its `spec` points into. -/
structure Hook where
  hookId : Id
  spec : HookSpec
  targetKey : Key
  /-- `matched_engine` and `matched_engine_ctx`. -/
  matchedEngine : Option EngineRef
  preparedState : Ptr
  preparedContinuation : Option ContinuationInfo
  installed : Option Installed
  result : HookResult

variable {ε : Type} (engines : EngineRef → Engine ε)

/-- The engine behind `matched_engine`. -/
def Hook.engine (hook : Hook) : Engine ε :=
  match hook.matchedEngine with
  | none => .absent
  | some ref => engines ref

/-- The descriptor of the matched engine. -/
def Hook.caps (hook : Hook) : Capabilities := (hook.engine engines).describe

/-! ## Preparation -/

/-- `hk_hook_release_prepared`. -/
def releasePrepared (hook : Hook) (w : World ε) : Hook × World ε :=
  if hook.preparedState = 0 then (hook, w)
  else
    let w := w.log (.released hook.hookId hook.matchedEngine hook.preparedState)
    let w :=
      match (hook.engine engines).releasePrepared with
      | none => w
      | some release => w.setEnv (release hook.preparedState w.env)
    let result :=
      if hook.result.mutation = .none then
        { hook.result with
          continuation := .absent, originalAvailable := false, currentlyValid := false }
      else hook.result
    ({ hook with preparedState := 0, preparedContinuation := none, result := result }, w)

/-- `hk_hook_inspect_prepared_continuation`. -/
def inspectPreparedContinuation (hook : Hook) (diag : PrepareDiag) (w : World ε) :
    PrepareResult × Hook × PrepareDiag × World ε :=
  match (hook.engine engines).inspectContinuation with
  | none => (.ok, hook, diag, w)
  | some inspect =>
    let (answer, w) := w.call (inspect hook.spec hook.preparedState)
    let fail (answerDiag : VerifyDiag) :=
      let (hook, w) := releasePrepared engines hook w
      let errorCode :=
        if answerDiag.errorCode ≠ 0 then answerDiag.errorCode else Status.internalError.code
      let errorMessage :=
        answerDiag.errorMessage.getD "engine could not inspect its prepared continuation"
      (PrepareResult.failed, hook,
        { diag with errorCode := errorCode, errorMessage := some errorMessage }, w)
    match answer.result with
    | .unavailable => (.ok, hook, diag, w)
    | .ok =>
      if answer.info.structSize < sizeofContinuationInfo then
        fail ⟨Status.internalError.code,
          some "engine returned a truncated continuation description"⟩
      else (.ok, { hook with preparedContinuation := some answer.info }, diag, w)
    | .failed => fail answer.diag

/-- The preparation entry points of the vtable, richest first.  `none` when there is none of them;
only a successful preparation may hand state forward, and the context-free form does not touch it
at all. -/
def Engine.prepareAnswer (engine : Engine ε) (hook : Hook) (env : Env ε) :
    Option (PrepareAnswer × Env ε) :=
  match engine.prepareOneCtxStatus with
  | some prepare =>
    let (answer, env) := prepare hook.spec env
    some ({ answer with prepared := if answer.result = .ok then answer.prepared else 0 }, env)
  | none =>
    match engine.prepareOneCtx with
    | some prepare =>
      match prepare hook.spec env with
      | (some prepared, env) => some (⟨.ok, prepared, .zero⟩, env)
      | (none, env) => some (⟨.failed, 0, .zero⟩, env)
    | none =>
      match engine.prepareOne with
      | some prepare =>
        let (ok, env) := prepare hook.spec env
        some (⟨if ok then .ok else .failed, hook.preparedState, .zero⟩, env)
      | none => none

/-- `hk_hook_dispatch_prepare`. -/
def dispatchPrepare (path : Path) (runtime : RuntimeId) (hook : Hook) (w : World ε) :
    PrepareResult × Hook × PrepareDiag × World ε :=
  match (hook.engine engines).prepareAnswer hook w.env with
  | none => (.failed, hook, .zero, w)
  | some (answer, env) =>
    let w := w.log
      (.prepareCall path hook.hookId hook.result.imageGeneration (w.env.generation runtime))
    let w := (w.setEnv env).log (.obtained hook.hookId hook.matchedEngine answer.prepared)
    let hook := { hook with preparedState := answer.prepared }
    if answer.result = .ok then inspectPreparedContinuation engines hook answer.diag w
    else (answer.result, hook, answer.diag, w)

/-- `hk_hook_validate_prepare_effects`. -/
def validatePrepareEffects (result : PrepareResult) (hook : Hook) (diag : PrepareDiag)
    (w : World ε) : PrepareResult × Hook × PrepareDiag × World ε :=
  if diag.observedEffects &&& ~~~(hook.caps engines).prepareEffects = 0 then (result, hook, diag, w)
  else
    let (hook, w) := if result = .ok then releasePrepared engines hook w else (hook, w)
    (.failed, hook,
      { diag with
        errorCode := Status.internalError.code
        errorMessage := some "engine produced an undeclared preparation effect" }, w)

/-! ## Commit -/

/-- The commit entry points of the vtable, richest first. -/
def Engine.commitAnswer (engine : Engine ε) (hook : Hook) (sink : Sink) (env : Env ε) :
    Option (CommitAnswer × Env ε) :=
  match engine.commitOneCtx with
  | some commit => some (commit hook.spec hook.preparedState sink env)
  | none =>
    match engine.commitOne with
    | some commit => some (commit hook.spec sink env)
    | none => none

/-- The verification entry points of the vtable, richest first. -/
def Engine.verifyAnswer (engine : Engine ε) (hook : Hook) (env : Env ε) : VerifyAnswer × Env ε :=
  match engine.verifyOneCtx with
  | some verify => verify hook.spec hook.preparedState env
  | none =>
    match engine.verifyOne with
    | some verify => verify hook.spec env
    | none => (⟨.unavailable, .zero⟩, env)

/-- `hk_hook_dispatch_commit`.  An engine that implements no commit cannot be trusted to have done
nothing. -/
def dispatchCommit (path : Path) (runtime : RuntimeId) (hook : Hook) (sink : Sink) (w : World ε) :
    Mutation × Sink × World ε :=
  match (hook.engine engines).commitAnswer hook sink w.env with
  | none => (.unknown, sink, w)
  | some (answer, env) =>
    let w := w.log (.commitCall {
      path := path, hook := hook.hookId, key := hook.targetKey
      engineId := (hook.caps engines).engineId
      recorded := hook.result.imageGeneration, current := w.env.generation runtime
      owner := w.owners.lookup hook.targetKey, requiredPredecessor := sink.requiredPredecessor
      requirement := hook.spec.originalRequirement, installed := hook.installed })
    let (sink, w) := sink.write answer.sink (w.setEnv env)
    (answer.mutation, sink, w)

/-- `hk_hook_validate_commit_effects`: whether the observed effects were declared, and the error
when they were not. -/
def validateCommitEffects (hook : Hook) (sink : Sink) (out : HookResult) : Bool × HookResult :=
  if sink.observedEffects &&& ~~~(hook.caps engines).commitEffects = 0 then (true, out)
  else (false, out.withError "core" Status.internalError.code
    "engine produced an undeclared commit effect")

/-- `hk_hook_apply_verification`.  `group` is the verdict of a grouped verification; without one the
engine is asked about this hook. -/
def applyVerification (hook : Hook) (ledger : Ledger) (artifactStart : Nat) (mutation : Mutation)
    (out : HookResult) (group : Option VerifyAnswer) (w : World ε) :
    Ledger × Mutation × HookResult × World ε :=
  let out := { out with verified := false }
  if mutation ≠ .complete ∨ hook.matchedEngine = none then (ledger, mutation, out, w)
  else
    let (answer, w) :=
      match group with
      | some answer => (answer, w)
      | none => w.call ((hook.engine engines).verifyAnswer hook)
    let fail (diag : VerifyDiag) :=
      (ledger, Mutation.unknown,
        out.withError ((hook.caps engines).engineId.getD "engine")
          (if diag.errorCode ≠ 0 then diag.errorCode else Status.internalError.code)
          (diag.errorMessage.getD "post-commit verification failed"), w)
    match answer.result with
    | .unavailable => (ledger, mutation, out, w)
    | .ok =>
      match ledger.markVerified artifactStart (ledger.count - artifactStart) with
      | some ledger => (ledger, mutation, { out with verified := true }, w)
      | none => fail ⟨Status.internalError.code, some "could not mark verified artifacts"⟩
    | .failed => fail answer.diag

/-- Store a settled result in the hook. -/
def settle (path : Path) (hook : Hook) (out : HookResult) (requiredPredecessor : Option Ptr)
    (published : Ptr) (w : World ε) : Hook × World ε :=
  let hook := { hook with result := out }
  (hook, w.log (.commitSettled {
    path := path, hook := hook.hookId, after := hook.spec.after, key := hook.targetKey
    engineId := (hook.caps engines).engineId, replacement := hook.spec.replacement
    requiredPredecessor := requiredPredecessor, published := published
    requirement := hook.spec.originalRequirement, installed := hook.installed
    outcome := out.outcome }))

/-- The outcome a final mutation state stands for. -/
def Mutation.outcome : Mutation → Outcome
  | .complete => .active
  | .none => .failedSafe
  | .partly => .failedPartial
  | .unknown => .failedUnknown

/-- The installed record of a hook that has become active, when its engine published an original. -/
def retainOriginal (hook : Hook) (out : HookResult) (published : Ptr) (w : World ε) :
    Hook × HookResult × World ε :=
  if published = 0 then (hook, out, w)
  else
    let (installedId, w) := w.freshId
    let out := { out with installedId := installedId, originalAvailable := true }
    match w.createInstalled installedId published out with
    | (some record, w) => ({ hook with installed := some record }, out, w)
    | (none, w) => (hook, { out with installedId := 0, originalAvailable := false }, w)

/-- The facts of an attempt that the result reports whatever the mutation is, and the mutation the
core believes in. -/
def rollUp (runtime : RuntimeId) (hook : Hook) (out : HookResult) (artifactCount : Nat)
    (mutation : Mutation) (sink : Sink) (w : World ε) : Mutation × HookResult :=
  let mutation := if sink.recordFailed ∧ mutation = .complete then .unknown else mutation
  let (declared, out) := validateCommitEffects engines hook sink out
  let mutation := if declared then mutation else .unknown
  let out := { out with
    mutation := mutation
    continuation := sink.continuation.getD out.continuation
    observedCommitEffects := sink.observedEffects
    artifactCount := artifactCount }
  let out :=
    if artifactCount > 0 then
      { out with
        matchedLocations := artifactCount % 2 ^ 32
        modifiedLocations := if mutation = .none then 0 else artifactCount % 2 ^ 32 }
    else out
  (mutation, { out with installedGeneration := w.env.generation runtime })

/-- The record of the key is headed by a complete mutation, if the caller asks for it. -/
def recordOwnership (hook : Hook) (out : HookResult) (mutation : Mutation) (published : Ptr)
    (w : World ε) : Mutation × HookResult × World ε :=
  if mutation = .complete then
    match w.recordOwner hook.targetKey (hook.caps engines).engineId hook.spec.replacement
        published with
    | (true, w) => (mutation, out, w)
    | (false, w) =>
      (.unknown, { out with mutation := .unknown }.withError "core" Status.outOfMemory.code
        "could not record target ownership", w)
  else (mutation, out, w)

/-- `hk_plan_finish_commit_attempt`.  `owned` says whether the caller passed the ownership it looked
up.  The counters follow the outcome: `active` counts `ACTIVE`, `failed` everything else. -/
def finishCommitAttempt (path : Path) (runtime : RuntimeId) (hook : Hook) (out : HookResult)
    (ledger : Ledger) (artifactStart : Nat) (mutation : Mutation) (sink : Sink)
    (group : Option VerifyAnswer) (owned compensated : Bool) (w : World ε) :
    Hook × Ledger × World ε :=
  let (mutation, out) :=
    rollUp engines runtime hook out (ledger.count - artifactStart) mutation sink w
  let (ledger, mutation, out, w) :=
    applyVerification engines hook ledger artifactStart mutation out group w
  let out := { out with mutation := mutation }
  let (mutation, out, w) :=
    if owned then recordOwnership engines hook out mutation sink.publishedOriginal w
    else (mutation, out, w)
  let (hook, out, w) :=
    if compensated then (hook, { out with outcome := .compensated }, w)
    else if mutation = .complete then
      retainOriginal hook { out with outcome := .active } sink.publishedOriginal w
    else (hook, { out with outcome := mutation.outcome }, w)
  let (hook, w) :=
    settle engines path hook out sink.requiredPredecessor sink.publishedOriginal w
  (hook, ledger, w)

/-- `hk_plan_set_ownership_error`. -/
def setOwnershipError (out : HookResult) (outcome : Outcome) (message : String) : HookResult :=
  { out with outcome := outcome, mutation := .none, retryable := false, currentlyValid := true
             }.withError "core" Status.invalidState.code message

/-- Whether the engine may not build on the record of the key. -/
def ownershipConflict (caps : Capabilities) (kind : TargetKind) : Option Owner → Bool
  | none => false
  | some owner =>
    caps.chainableTargetKinds &&& maskBit kind.code = 0 || caps.engineId ≠ owner.engineId

/-- The checks made between the commit callback and the common roll-up. -/
def recoverMutation (hook : Hook) (owner : Option Owner) (mutation : Mutation) (sink : Sink)
    (out : HookResult) : Mutation × HookResult :=
  let mutation := if sink.recordFailed ∧ mutation = .complete then .unknown else mutation
  let (mutation, out) :=
    if mutation = .complete then
      let (declared, out) := validateCommitEffects engines hook sink out
      (if declared then mutation else .unknown, out)
    else (mutation, out)
  match owner with
  | some owner =>
    if mutation = .complete ∧ sink.publishedOriginal ≠ owner.headReplacement then
      (.unknown, out.withError "core" Status.invalidState.code
        "engine did not publish the owned predecessor")
    else (mutation, out)
  | none => (mutation, out)

/-- The critical section of a one-hook commit, from `hk_ownership_lock` to `hk_ownership_unlock`:
in `hk_plan_commit`, and repeated line by line in `hk_runtime_drain_pending`.  The two differ in
the plan the sink names and in the continuation it starts with. -/
def commitOneHook (path : Path) (runtime : RuntimeId) (planId ownerId : Id)
    (continuation : Option ContinuationInfo) (hook : Hook) (out : HookResult) (ledger : Ledger)
    (w : World ε) : Hook × Ledger × World ε :=
  let owner := w.owners.lookup hook.targetKey
  if ownershipConflict (hook.caps engines) hook.spec.targetKind owner then
    let out := setOwnershipError out .conflict
      "existing target ownership is not chainable by this engine"
    let (hook, w) := settle engines path hook out none 0 w
    (hook, ledger, w)
  else
    let sink : Sink := {
      ledger := ledger, planId := planId, runtimeOwnerId := ownerId, requestId := hook.hookId
      publishedOriginal := 0, continuation := continuation
      requiredPredecessor := owner.map Owner.headReplacement
      recordFailed := false, observedEffects := 0 }
    let artifactStart := ledger.count
    let (mutation, sink, w) := dispatchCommit engines path runtime hook sink w
    let (mutation, out) := recoverMutation engines hook owner mutation sink out
    finishCommitAttempt engines path runtime hook out sink.ledger artifactStart mutation sink none
      true false w

end HookKit
