import HookKit.Plan.Commit

/-!
# The pending queue

Hooks whose target is not there yet outlive their plan: `hk_plan_release` hands them to the runtime,
and `hk_runtime_drain_pending` tries each of them again.  A hook that leaves the queue is freed, so
its final result is only in the report.
-/

set_option autoImplicit false

namespace HookKit

variable {ε : Type} (engines : EngineRef → Engine ε)

/-- `hk_hook_free`. -/
def freeHook (hook : Hook) (w : World ε) : World ε := (releasePrepared engines hook w).2

/-! ## Release -/

/-- `hk_runtime_adopt_pending_hook`. -/
def adoptPendingHook (runtime : Runtime) (hook : Hook) (w : World ε) : Bool × Runtime × World ε :=
  match growArray runtime.pending.length runtime.pendingCapacity w.env with
  | (false, env) => (false, runtime, w.setEnv env)
  | (true, env) =>
    (true, { runtime with
      pending := runtime.pending ++ [hook]
      pendingCapacity := grownCapacity runtime.pending.length runtime.pendingCapacity },
      w.setEnv env)

/-- The loop of `hk_plan_release` over the plan's hooks. -/
def releaseHooks : List Hook → Runtime → World ε → Runtime × World ε
  | [], runtime, w => (runtime, w)
  | hook :: rest, runtime, w =>
    if hook.result.outcome = .pending then
      match adoptPendingHook runtime hook w with
      | (true, runtime, w) => releaseHooks rest runtime w
      | (false, runtime, w) => releaseHooks rest runtime (freeHook engines hook w)
    else releaseHooks rest runtime (freeHook engines hook w)

/-- `hk_plan_release`. -/
def releasePlan (runtime : Runtime) (plan : Plan) (w : World ε) : Runtime × World ε :=
  releaseHooks engines plan.hooks runtime w

/-- `hk_runtime_free_pending_hooks`. -/
def freePendingHooks (runtime : Runtime) (w : World ε) : Runtime × World ε :=
  ({ runtime with pending := [], pendingCapacity := 0 },
    runtime.pending.foldl (fun w hook ↦ freeHook engines hook w) w)

/-! ## Draining -/

/-- What one queued hook ends with: its result, and the hook itself if it stays queued. -/
structure Drained where
  result : HookResult
  kept : Option Hook

/-- The preparation of a queued hook, up to the point where its result is looked at. -/
def drainPrepare (runtime : RuntimeId) (hook : Hook) (w : World ε) :
    PrepareResult × Hook × HookResult × World ε :=
  let (result, prepared, diag, w) := dispatchPrepare engines .drain runtime hook w
  let (result, prepared, diag, w) := validatePrepareEffects engines result prepared diag w
  let out := { hook.result with observedPrepareEffects := diag.observedEffects }
  let out :=
    if diag.errorMessage.isSome ∨ diag.errorCode ≠ 0 then
      { out with
        errorCode := diag.errorCode, errorMessage := diag.errorMessage <|> out.errorMessage }
    else out
  (result, prepared, out, w)

/-- One queued hook in `hk_runtime_drain_pending`. -/
def drainOne (runtime : RuntimeId) (ownerId : Id) (hook : Hook) (ledger : Ledger) (w : World ε) :
    Drained × Ledger × World ε :=
  match drainPrepare engines runtime hook w with
  | (.notApplicable, hook, out, w) =>
    let out := { out with outcome := .pending, retryable := true, currentlyValid := false }
    let hook := { hook with result := out }
    (⟨out, some hook⟩, ledger, w.log (.prepareSettled hook.hookId .pending))
  | (.failed, hook, out, w) =>
    let out := { out with outcome := .failedSafe, retryable := false }
    let hook := { hook with result := out }
    (⟨out, none⟩, ledger, freeHook engines hook (w.log (.prepareSettled hook.hookId .failedSafe)))
  | (.ok, hook, out, w) =>
    let (hook, ledger, w) :=
      commitOneHook engines .drain runtime out.planId ownerId none hook out ledger w
    (⟨hook.result, none⟩, ledger, freeHook engines hook w)

/-- The loop of `hk_runtime_drain_pending`. -/
def drainLoop (runtime : RuntimeId) (ownerId : Id) :
    List Hook → Ledger → World ε → List Drained × Ledger × World ε
  | [], ledger, w => ([], ledger, w)
  | hook :: rest, ledger, w =>
    let (drained, ledger, w) := drainOne engines runtime ownerId hook ledger w
    let (rest, ledger, w) := drainLoop runtime ownerId rest ledger w
    (drained :: rest, ledger, w)

/-- `hk_runtime_drain_pending`, with the results and the ledger of its report. -/
def drainPending (runtimeId : RuntimeId) (runtime : Runtime) (w : World ε) :
    Status × List HookResult × Ledger × Runtime × World ε :=
  if runtime.pending.isEmpty then (.ok, [], .empty, runtime, w)
  else
    match w.alloc with
    | (false, w) => (.outOfMemory, [], .empty, runtime, w)
    | (true, w) =>
      match w.alloc with
      | (false, w) => (.outOfMemory, [], .empty, runtime, w)
      | (true, w) =>
        let (drained, ledger, w) :=
          drainLoop engines runtimeId runtime.ownerId runtime.pending .empty w
        let results := drained.map Drained.result
        let runtime := { runtime with pending := drained.filterMap Drained.kept }
        match createReport results.length w with
        | (false, w) => (.outOfMemory, [], .empty, runtime, w)
        | (true, w) =>
          let (runtime, w) := publishArtifacts runtime ledger w
          (.ok, results, ledger, runtime, w)

end HookKit
