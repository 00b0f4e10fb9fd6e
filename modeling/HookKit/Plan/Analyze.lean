import HookKit.Plan.Build

/-!
# Analysis

`hk_plan_analyze`: for every hook of a draft, the registered engine that can serve it best.  The
callbacks it makes may not touch a target, but nothing else is assumed about them.
-/

set_option autoImplicit false

namespace HookKit

variable {ε : Type}

/-- `hk_bit_count64`. -/
def bitCount (mask : Mask) : Nat := (List.range 64).countP fun i ↦ mask.getLsbD i

/-- `hk_engine_effective_reach`. -/
def effectiveReach (imageCount : Nat) (hook : Hook) (caps : Capabilities) : Mask :=
  if caps.achievableReach &&& reachExactImageScope = 0 then caps.achievableReach
  else
    let claimed := caps.exactImageScopeTargets &&& maskBit hook.spec.targetKind.code ≠ 0
    let absolute :=
      match hook.spec.target with
      | .memory t => !t.addressIsImageRelative
      | _ => false
    let served :=
      match hook.spec.targetKind with
      | .functionAddress | .memoryPatch => true
      | .functionSymbol =>
        caps.exactImageScopeTargets &&& maskBit TargetKind.functionSymbol.code ≠ 0
      | _ => false
    if claimed && imageCount ≠ 0 && !absolute && served then caps.achievableReach
    else caps.achievableReach &&& ~~~reachExactImageScope

/-- `hk_engine_honors_symbol_defining_scope`. -/
def honorsSymbolDefiningScope (hook : Hook) (caps : Capabilities) : Bool :=
  match hook.spec.target with
  | .symbol t =>
    t.definingImage.kind = .anyLoaded ||
      caps.exactImageScopeTargets &&& maskBit TargetKind.functionSymbol.code ≠ 0
  | _ => true

/-- What the router knows of an eligible engine. -/
structure Route where
  engine : EngineRef
  caps : Capabilities
  reach : Mask
  preferred : Nat
  routeRank : Nat

/-- The answer of `analyze_operation` folded into the reach and rank of a candidate; an engine
without the callback keeps what its descriptor says. -/
def refineRoute (engine : Engine ε) (hook : Hook) (reach : Mask) (env : Env ε) :
    Option (Mask × Nat) × Env ε :=
  match engine.analyzeOperation with
  | none => (some (reach, 0), env)
  | some analyze =>
    match analyze hook.spec env with
    | (none, env) => (none, env)
    | (some analysis, env) =>
      let reach := if analysis.achievedReach ≠ 0 then reach &&& analysis.achievedReach else reach
      if analysis.requiredPrepareEffects &&& ~~~engine.describe.prepareEffects ≠ 0 ∨
          analysis.requiredCommitEffects &&& ~~~engine.describe.commitEffects ≠ 0 then (none, env)
      else (some (reach, analysis.routeRank), env)

/-- One candidate of the loop in `hk_hook_analyze_one`. -/
def analyzeCandidate (engines : EngineRef → Engine ε) (runtime : Runtime) (runtimeId : RuntimeId)
    (hook : Hook) (registration : Registration) (env : Env ε) : Option Route × Env ε :=
  let engine := engines registration.engine
  let caps := engine.describe
  let reach := effectiveReach (env.imageCount runtimeId) hook caps
  let (available, env) :=
    match engine.discover with
    | none => (true, env)
    | some discover => discover env
  if !available then (none, env)
  else
    match refineRoute engine hook reach env with
    | (none, env) => (none, env)
    | (some (reach, routeRank), env) =>
      if !eligibleMinimalFull caps hook.spec.targetKind hook.spec.requiredReach
            hook.spec.originalRequirement
            (effectiveConstraints hook.spec.constraints hook.spec.continuationPolicy) ||
          hook.spec.requiredReach &&& ~~~reach ≠ 0 ||
          !honorsSymbolDefiningScope hook caps ||
          !supportsInstallContext caps runtime.installContext ||
          !supportsPlatform caps runtime.platformArchitecture runtime.platformIosVersion
            registration.testing then (none, env)
      else
        (some ⟨registration.engine, caps, reach, bitCount (reach &&& hook.spec.preferredReach),
          routeRank⟩, env)

/-- Whether a candidate replaces the best one so far. -/
def Route.beats (route : Route) : Option Route → Bool
  | none => true
  | some best =>
    route.preferred > best.preferred ||
      (route.preferred = best.preferred && route.routeRank > best.routeRank)

/-- The loop over the registered engines, in registration order. -/
def findRoute (engines : EngineRef → Engine ε) (runtime : Runtime) (runtimeId : RuntimeId)
    (hook : Hook) : List Registration → Option Route → Env ε → Option Route × Env ε
  | [], best, env => (best, env)
  | registration :: rest, best, env =>
    match analyzeCandidate engines runtime runtimeId hook registration env with
    | (none, env) => findRoute engines runtime runtimeId hook rest best env
    | (some route, env) =>
      findRoute engines runtime runtimeId hook rest
        (if route.beats best then some route else best) env

/-- `hk_hook_analyze_one`. -/
def analyzeOne (engines : EngineRef → Engine ε) (runtime : Runtime) (runtimeId : RuntimeId)
    (planId : Id) (hook : Hook) (env : Env ε) : Hook × Env ε :=
  let out : HookResult := { HookResult.zero with
    requestId := hook.hookId
    planId := planId
    runtimeOwnerId := runtime.ownerId
    continuation := .absent
    currentlyValid := true
    imageGeneration := env.generation runtimeId }
  match findRoute engines runtime runtimeId hook runtime.engines none env with
  | (some route, env) =>
    ({ hook with
      matchedEngine := some route.engine
      result := { out with
        outcome := .analyzed
        achievedReach := route.reach
        unmetPreferredReach := hook.spec.preferredReach &&& ~~~route.reach
        retryable := false
        diagnosticEngineId := route.caps.engineId
        declaredPrepareEffects := route.caps.prepareEffects
        declaredCommitEffects := route.caps.commitEffects
        imageGeneration := env.generation runtimeId } }, env)
  | (none, env) =>
    ({ hook with
      matchedEngine := none
      result := { out with
        outcome := .noRoute
        unmetPreferredReach := hook.spec.preferredReach
        retryable := true } }, env)

/-- The loop over the hooks of the plan. -/
def analyzeHooks (engines : EngineRef → Engine ε) (runtime : Runtime) (runtimeId : RuntimeId)
    (planId : Id) : List Hook → Env ε → List Hook × Env ε
  | [], env => ([], env)
  | hook :: rest, env =>
    let (hook, env) := analyzeOne engines runtime runtimeId planId hook env
    let (rest, env) := analyzeHooks engines runtime runtimeId planId rest env
    (hook :: rest, env)

/-- `hk_report_create`: the report, its ledger and, when there are results, their array. -/
def createReport (count : Nat) (w : World ε) : Bool × World ε :=
  match w.alloc with
  | (false, w) => (false, w)
  | (true, w) =>
    let (_, w) := w.freshId
    match w.alloc with
    | (false, w) => (false, w)
    | (true, w) => if count > 0 then w.alloc else (true, w)

/-- `hk_plan_analyze`.  The report's results are the results of the hooks. -/
def analyzePlan (engines : EngineRef → Engine ε) (runtime : Runtime) (plan : Plan) (w : World ε) :
    Status × Plan × World ε :=
  if plan.state ≠ .draft then (.invalidState, plan, w)
  else
    match (if plan.hooks.length > 0 then w.alloc else (true, w)) with
    | (false, w) => (.outOfMemory, plan, w)
    | (true, w) =>
      let (hooks, env) := analyzeHooks engines runtime plan.runtime plan.planId plan.hooks w.env
      let plan := { plan with hooks := hooks }
      match createReport hooks.length (w.setEnv env) with
      | (false, w) => (.outOfMemory, plan, w)
      | (true, w) => (.ok, { plan with state := .analyzed }, w)

end HookKit
