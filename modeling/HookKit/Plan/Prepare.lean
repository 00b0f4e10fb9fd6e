import HookKit.Lib.Loop
import HookKit.Plan.Analyze

/-!
# Preparation

`hk_plan_prepare`: every hook with a route is prepared by its engine, alone or in a wave, unless
its domain's gate is shut.  One pass of the loop is `prepareIter`; it gives up where the C code
returns `OUT_OF_MEMORY` in the middle.

The result array of the C code is not modelled: at every point where the code reads `results[i]` it
is either the hook's own result or a copy of it that is written back in the same branch.
-/

set_option autoImplicit false

namespace HookKit

open Loop

variable {ε : Type}

/-! ## Domains -/

/-- `hk_plan_domain_index`, as the domain it indexes. -/
def domainOf (domains : List Domain) (hook : Hook) : Option Domain :=
  hook.spec.domain.bind fun id ↦ domains.find? fun domain ↦ domain.domainId = id

/-- `hk_domain_mandatory_gate_satisfied`. -/
def mandatoryGateSatisfied (hooks : List Hook) (domain : Domain) : Bool :=
  !domain.spec.requireAllMandatoryPrepared ||
    hooks.all fun hook ↦
      !(hook.spec.domain = some domain.domainId && hook.spec.role = .mandatory &&
        hook.result.outcome ≠ .analyzed)

/-- The state of the loop in `hk_plan_prepare`.  `prepared` may drop below zero where the C code's
`size_t` wraps around; only its being zero is ever asked. -/
structure PrepareState (ε : Type) where
  world : World ε
  hooks : List Hook
  index : Nat
  attempted : Nat
  prepared : Int
  failed : Nat
  /-- `domain_prepare_failed`. -/
  domainFailed : Id → Bool

variable (engines : EngineRef → Engine ε)

/-- `hk_release_prepared_domain_members`; it counts the members it released. -/
def releaseDomainMembers (domain : Id) : List Hook → World ε → List Hook × Nat × World ε
  | [], w => ([], 0, w)
  | hook :: rest, w =>
    if hook.spec.domain = some domain ∧ hook.result.outcome = .prepared then
      let (hook, w) := releasePrepared engines hook w
      let out := { hook.result with
        outcome := .failedSafe, mutation := .none, retryable := false, currentlyValid := false }
      let out := out.withError "core" Status.invalidState.code "mandatory domain preparation failed"
      let w := w.log (.prepareSettled hook.hookId out.outcome)
      let (rest, released, w) := releaseDomainMembers domain rest w
      ({ hook with result := out } :: rest, released + 1, w)
    else
      let (rest, released, w) := releaseDomainMembers domain rest w
      (hook :: rest, released, w)

/-- What the loop does when a member of a domain fails: if the member is mandatory and the domain's
gate was open, the members prepared so far are taken back. -/
def failDomain (domains : List Domain) (gateOk : Id → Bool) (hook : Hook) (st : PrepareState ε) :
    PrepareState ε :=
  match domainOf domains hook with
  | none => st
  | some domain =>
    if gateOk domain.domainId ∧ domain.spec.requireAllMandatoryPrepared ∧
        hook.spec.role = .mandatory then
      let (hooks, released, w) := releaseDomainMembers engines domain.domainId st.hooks st.world
      { st with
        world := w, hooks := hooks
        prepared := st.prepared - released, failed := st.failed + released
        domainFailed := Function.update st.domainFailed domain.domainId true }
    else st

/-! ## One preparation attempt -/

/-- The outcome of a preparation that ended with `result`. -/
def preparedOutcome (spec : HookSpec) : PrepareResult → Outcome
  | .ok => .prepared
  | .notApplicable =>
    if spec.effectiveAvailability = .deferUntilAvailable then .pending else .noRoute
  | .failed => .failedSafe

/-- The engine's diagnosis, where it gave one. -/
def HookResult.withDiag (out : HookResult) (engineId : Option String) (diag : PrepareDiag) :
    HookResult :=
  if diag.errorMessage.isSome ∨ diag.errorCode ≠ 0 then
    { out with
      errorCode := diag.errorCode
      errorMessage := diag.errorMessage <|> out.errorMessage
      errorDomain := engineId <|> out.errorDomain }
  else out

/-- The result a preparation attempt leaves. -/
def preparedResult (hook : Hook) (out : HookResult) (result : PrepareResult) (diag : PrepareDiag) :
    HookResult :=
  let out := { out with observedPrepareEffects := diag.observedEffects }
  let out := out.withDiag (hook.caps engines).engineId diag
  let out := { out with outcome := preparedOutcome hook.spec result }
  match result with
  | .ok => { out with continuation := hook.preparedContinuation.getD out.continuation }
  | .notApplicable => { out with retryable := true, currentlyValid := false }
  | .failed => out

/-- `hk_plan_record_prepare_attempt`.  `out` is the result the hook had when the loop reached it. -/
def recordPrepareAttempt (domains : List Domain) (gateOk : Id → Bool) (index : Nat)
    (result : PrepareResult) (hook : Hook) (diag : PrepareDiag) (out : HookResult)
    (st : PrepareState ε) : PrepareState ε :=
  let (result, hook, diag, w) := validatePrepareEffects engines result hook diag st.world
  let (hook, w) := if result ≠ .ok then releasePrepared engines hook w else (hook, w)
  let hook := { hook with result := preparedResult engines hook out result diag }
  let st := { st with
    world := w.log (.prepareSettled hook.hookId hook.result.outcome)
    hooks := st.hooks.set index hook
    prepared := if result = .ok then st.prepared + 1 else st.prepared
    failed := if result = .failed then st.failed + 1 else st.failed }
  if result = .failed then failDomain engines domains gateOk hook st else st

/-! ## Waves -/

/-- Whether `hook` continues a wave that `first` starts. -/
def joinsPrepareWave (generation : Nat) (first hook : Hook) : Bool :=
  hook.result.outcome = .analyzed && hook.spec.domain.isNone &&
    hook.matchedEngine = first.matchedEngine && hook.result.imageGeneration = generation

/-- `hk_plan_prepare_group_count`. -/
def prepareGroupCount (generation : Nat) (hooks : List Hook) (start : Nat) : Nat :=
  match hooks.drop start with
  | [] => 0
  | first :: rest =>
    if first.result.outcome ≠ .analyzed ∨ first.spec.domain.isSome ∨ first.matchedEngine.isNone ∨
        (first.engine engines).prepareGroupCtx.isNone ∨ !(first.caps engines).nativeGrouping then 0
    else
      let count := 1 + (rest.takeWhile (joinsPrepareWave generation first)).length
      if count > 1 then count else 0

/-- The first loop of `hk_plan_prepare_group`: what an earlier attempt left is released. -/
def releaseAll : List Hook → World ε → List Hook × World ε
  | [], w => ([], w)
  | hook :: rest, w =>
    let (hook, w) := releasePrepared engines hook w
    let (rest, w) := releaseAll rest w
    (hook :: rest, w)

/-- The history of a grouped preparation callback: every member reached the engine. -/
def logPrepareCalls (runtime : RuntimeId) : List Hook → World ε → World ε
  | [], w => w
  | hook :: rest, w =>
    logPrepareCalls runtime rest (w.log
      (.prepareCall .group hook.hookId hook.result.imageGeneration (w.env.generation runtime)))

/-- The last loop of `hk_plan_prepare_group`.  `outs` are the results the members had before. -/
def recordPrepareGroup (answer : PrepareGroupAnswer) (index : Nat) :
    List HookResult → Nat → PrepareState ε → PrepareState ε
  | [], _, st => st
  | out :: outs, offset, st =>
    match st.hooks[index + offset]? with
    | none => st
    | some hook =>
      let written := answer.writes offset
      let w := st.world.log (.obtained hook.hookId hook.matchedEngine written.prepared)
      let written :=
        if answer.accepted then written else { written with result := .failed, prepared := 0 }
      let hook := { hook with preparedState := written.prepared }
      let (result, hook, diag, w) :=
        if written.result = .ok then inspectPreparedContinuation engines hook written.diag w
        else (written.result, hook, written.diag, w)
      let st := recordPrepareAttempt engines [] (fun _ ↦ true) (index + offset) result hook diag out
        { st with world := w }
      recordPrepareGroup answer index outs (offset + 1) st

/-- The grouped callback of the first member's engine, which is the engine of all of them. -/
def callPrepareGroup (members : List Hook) (w : World ε) : PrepareGroupAnswer × World ε :=
  match (members.head?.map (Hook.engine engines)).bind Engine.prepareGroupCtx with
  | none => (⟨false, fun _ ↦ ⟨.failed, 0, .zero⟩⟩, w)
  | some prepare => w.call (prepare (members.map Hook.spec))

/-- `hk_plan_prepare_group`. -/
def prepareGroup (runtime : RuntimeId) (count : Nat) (st : PrepareState ε) :
    Flow (PrepareState ε) :=
  match st.world.alloc with
  | (false, w) => .stop { st with world := w }
  | (true, w) =>
    let members := (st.hooks.drop st.index).take count
    let outs := members.map Hook.result
    let (released, w) := releaseAll engines members w
    let hooks := st.hooks.take st.index ++ released ++ st.hooks.drop (st.index + count)
    let (answer, w) := callPrepareGroup engines released (logPrepareCalls runtime released w)
    let st := { st with world := w, hooks := hooks, attempted := st.attempted + count }
    let st := recordPrepareGroup engines answer st.index outs 0 st
    .next { st with index := st.index + count }

/-! ## The loop -/

/-- A hook whose recorded generation is no longer the catalog's. -/
def prepareStale (domains : List Domain) (gateOk : Id → Bool) (hook : Hook)
    (st : PrepareState ε) : PrepareState ε :=
  let hook := { hook with
    result := { hook.result with
      outcome := .stalePlan, retryable := true, currentlyValid := false } }
  let st := { st with
    world := st.world.log (.prepareSettled hook.hookId .stalePlan)
    hooks := st.hooks.set st.index hook
    failed := st.failed + 1 }
  failDomain engines domains gateOk hook st

/-- Whether the gate of the hook's domain refuses the attempt. -/
def gateBlocked (domains : List Domain) (gateOk domainFailed : Id → Bool) (hook : Hook) : Bool :=
  match domainOf domains hook with
  | none => false
  | some domain => !gateOk domain.domainId || domainFailed domain.domainId

/-- A hook refused by its domain's gate. -/
def prepareBlocked (hook : Hook) (st : PrepareState ε) : PrepareState ε :=
  let hook := { hook with result := { hook.result with outcome := .failedSafe } }
  { st with
    world := st.world.log (.prepareSettled hook.hookId .failedSafe)
    hooks := st.hooks.set st.index hook
    failed := st.failed + 1 }

/-- A hook that is prepared by itself. -/
def prepareSingle (runtime : RuntimeId) (domains : List Domain) (gateOk : Id → Bool) (hook : Hook)
    (st : PrepareState ε) : PrepareState ε :=
  let out := hook.result
  let (hook, w) := releasePrepared engines hook st.world
  let (result, hook, diag, w) := dispatchPrepare engines .single runtime hook w
  recordPrepareAttempt engines domains gateOk st.index result hook diag out { st with world := w }

/-- One pass of the loop in `hk_plan_prepare`. -/
def prepareIter (runtime : RuntimeId) (domains : List Domain) (gateOk : Id → Bool)
    (st : PrepareState ε) : Flow (PrepareState ε) :=
  match st.hooks[st.index]? with
  | none => .next { st with index := st.index + 1 }
  | some hook =>
    if hook.result.outcome ≠ .analyzed then .next { st with index := st.index + 1 }
    else
      let generation := st.world.env.generation runtime
      let count := prepareGroupCount engines generation st.hooks st.index
      if count > 1 then prepareGroup engines runtime count st
      else if hook.result.imageGeneration ≠ generation then
        let st := prepareStale engines domains gateOk hook st
        .next { st with index := st.index + 1 }
      else
        let st := { st with attempted := st.attempted + 1 }
        let st :=
          if gateBlocked domains gateOk st.domainFailed hook then prepareBlocked hook st
          else prepareSingle engines runtime domains gateOk hook st
        .next { st with index := st.index + 1 }

/-- `domain_gate_ok`. -/
def domainGateOk (plan : Plan) (id : Id) : Bool :=
  (plan.domains.find? fun domain ↦ domain.domainId = id).any (mandatoryGateSatisfied plan.hooks)

/-- The loop of `hk_plan_prepare`. -/
def prepareLoop (plan : Plan) (w : World ε) : Flow (PrepareState ε) :=
  run (fun st ↦ decide (st.index < plan.hooks.length))
    (prepareIter engines plan.runtime plan.domains (domainGateOk plan)) plan.hooks.length
    { world := w, hooks := plan.hooks, index := 0, attempted := 0, prepared := 0, failed := 0
      domainFailed := fun _ ↦ false }

/-- The state of the plan after a preparation that went through. -/
def PrepareState.planState (st : PrepareState ε) : PlanState :=
  if st.failed = 0 then .prepared
  else if st.prepared = 0 ∧ st.attempted > 0 then .failed
  else .partly

/-- The arrays `hk_plan_prepare` allocates before its loop. -/
def allocPrepare (plan : Plan) (w : World ε) : Bool × World ε :=
  match (if plan.hooks.length > 0 then w.alloc else (true, w)) with
  | (false, w) => (false, w)
  | (true, w) =>
    if plan.domains.length > 0 then
      match w.alloc with
      | (false, w) => (false, w)
      | (true, w) => w.alloc
    else (true, w)

/-- `hk_plan_prepare`.  The report's results are the results of the hooks. -/
def preparePlan (plan : Plan) (w : World ε) : Status × Plan × World ε :=
  if plan.state ≠ .analyzed then (.invalidState, plan, w)
  else
    match allocPrepare plan w with
    | (false, w) => (.outOfMemory, plan, w)
    | (true, w) =>
      match prepareLoop engines plan w with
      | .stop st => (.outOfMemory, { plan with hooks := st.hooks }, st.world)
      | .next st =>
        match createReport plan.hooks.length st.world with
        | (false, w) => (.outOfMemory, { plan with hooks := st.hooks }, w)
        | (true, w) => (.ok, { plan with hooks := st.hooks, state := st.planState }, w)

end HookKit
