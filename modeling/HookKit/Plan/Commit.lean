import HookKit.Plan.Order

/-!
# Commit

`hk_plan_commit`: the prepared hooks are visited in commit order and handed to their engines, alone
or in a wave.  One pass of the loop is `commitIter`; it gives up where the C code returns
`OUT_OF_MEMORY` in the middle, which is only before a wave reaches its engine.

As in preparation, the result array is not modelled: `results[i]` is the hook's own result wherever
it is read.
-/

set_option autoImplicit false

namespace HookKit

open Loop

variable {ε : Type}

/-- The state of the loop in `hk_plan_commit`. -/
structure CommitState (ε : Type) where
  world : World ε
  hooks : List Hook
  ledger : Ledger
  /-- `order_index`. -/
  position : Nat
  attempted : Nat
  active : Nat
  failed : Nat

/-- What the loop knows and does not change: the plan and its commit order. -/
structure CommitPlan where
  planId : Id
  ownerId : Id
  runtime : RuntimeId
  domains : List Domain
  order : List Nat

variable (engines : EngineRef → Engine ε)

/-! ## Dependencies and domains -/

/-- Whether every dependency of the hook is active. -/
def dependenciesActive (hooks : List Hook) (hook : Hook) : Bool :=
  hook.spec.after.all fun id ↦
    (findHook hooks id).any fun dependency ↦ dependency.result.outcome = .active

/-- `hk_commit_dependency_ready_for_domain`. -/
def dependencyReadyForDomain (hooks : List Hook) (domain : Id) (hook : Hook) : Bool :=
  hook.spec.after.all fun id ↦
    (findHook hooks id).any fun dependency ↦
      dependency.result.outcome = .active ||
        (dependency.spec.domain = some domain && dependency.result.outcome = .prepared)

/-- `hk_domain_commit_preflight`. -/
def domainCommitPreflight (generation : Nat) (hooks : List Hook) (domain : Id) : Bool :=
  hooks.all fun hook ↦
    !(hook.spec.domain = some domain && hook.spec.role = .mandatory) ||
      (hook.result.outcome = .prepared && hook.result.imageGeneration = generation &&
        dependencyReadyForDomain hooks domain hook)

/-- The result of a member whose domain did not pass its preflight. -/
def preflightResult (generation : Nat) (result : HookResult) : HookResult :=
  if result.imageGeneration ≠ generation then
    { result with
      mutation := .none, outcome := .stalePlan, retryable := true, currentlyValid := false
      errorDomain := some "core", errorCode := Status.invalidState.code
      errorMessage := some "mandatory domain member became stale" }
  else
    { result with
      mutation := .none, outcome := .failedSafe, retryable := false, currentlyValid := true
      errorDomain := some "core", errorCode := Status.invalidState.code
      errorMessage := some "mandatory domain preflight did not pass" }

/-- `hk_mark_domain_commit_preflight_failed`; it counts the members it marked. -/
def markDomainCommitPreflightFailed (generation : Nat) (domain : Id) :
    List Hook → World ε → List Hook × Nat × World ε
  | [], w => ([], 0, w)
  | hook :: rest, w =>
    if hook.spec.domain = some domain ∧ hook.result.outcome = .prepared then
      let (hook, w) :=
        settle engines .single hook (preflightResult generation hook.result) none 0 w
      let (rest, marked, w) := markDomainCommitPreflightFailed generation domain rest w
      (hook :: rest, marked + 1, w)
    else
      let (rest, marked, w) := markDomainCommitPreflightFailed generation domain rest w
      (hook :: rest, marked, w)

/-! ## Waves -/

/-- Whether a hook may start a wave, before the ownership of its key is looked up. -/
def startsCommitWave (first : Hook) : Bool :=
  first.result.outcome = .prepared && first.spec.domain.isNone && first.spec.after = [] &&
    first.matchedEngine.isSome && (first.engine engines).commitGroupCtx.isSome &&
    (first.caps engines).nativeGrouping

/-- Whether `hook` continues a wave that `first` starts, before the ownership of its key is looked
up. -/
def joinsCommitWave (generation : Nat) (first : Hook) (previous : List Hook) (hook : Hook) : Bool :=
  hook.result.outcome = .prepared && hook.spec.domain.isNone && hook.spec.after = [] &&
    hook.matchedEngine = first.matchedEngine && hook.result.imageGeneration = generation &&
    !previous.any fun earlier ↦ earlier.targetKey = hook.targetKey

/-- How many hooks follow in the wave after `previous`. -/
def commitWaveLength (owners : Owners) (generation : Nat) (first : Hook) :
    List Hook → List Hook → Nat
  | _, [] => 0
  | previous, hook :: rest =>
    if joinsCommitWave generation first previous hook && (owners.lookup hook.targetKey).isNone then
      1 + commitWaveLength owners generation first (previous ++ [hook]) rest
    else 0

/-- The hooks at the positions of `order`. -/
def hooksAt (hooks : List Hook) (order : List Nat) : List Hook := order.filterMap fun i ↦ hooks[i]?

/-- `hk_plan_commit_group_count`, for the hooks from the current position on. -/
def commitGroupCount (owners : Owners) (generation : Nat) : List Hook → Nat
  | [] => 0
  | first :: rest =>
    if startsCommitWave engines first && (owners.lookup first.targetKey).isNone then
      let count := 1 + commitWaveLength owners generation first [first] rest
      if count > 1 then count else 0
    else 0

/-- A hook in a wave, with its result slot, its operation and where its artifacts start. -/
structure Member where
  hook : Hook
  out : HookResult
  op : Operation
  artifactStart : Nat

/-- The operation a hook enters a wave with. -/
def openOperation (plan : CommitPlan) (revalidated : Bool) (hook : Hook) : Member where
  hook := hook
  out := hook.result
  artifactStart := 0
  op := {
    spec := hook.spec, prepared := hook.preparedState
    sink := {
      ledger := .empty, planId := plan.planId, runtimeOwnerId := plan.ownerId
      requestId := hook.hookId, publishedOriginal := 0, continuation := hook.preparedContinuation
      requiredPredecessor := none, recordFailed := false, observedEffects := 0 }
    mutation := .unknown, verifyResult := .failed, verifyDiag := .zero
    revalidated := revalidated, compensated := false }

/-- What a grouped callback wrote into the operations. -/
def applyWrites (writes : Nat → OperationWrites) :
    Nat → List Member → World ε → List Member × World ε
  | _, [], w => ([], w)
  | offset, member :: rest, w =>
    let written := writes offset
    let (sink, w) := member.op.sink.write written.sink w
    let member := { member with
      op := { member.op with
        sink := sink, mutation := written.mutation, verifyResult := written.verifyResult
        verifyDiag := written.verifyDiag, revalidated := written.revalidated
        compensated := written.compensated } }
    let (rest, w) := applyWrites writes (offset + 1) rest w
    (member :: rest, w)

/-- Run a grouped callback on the operations. -/
def callGroup (callback : List Operation → Env ε → GroupAnswer × Env ε) (members : List Member)
    (w : World ε) : Bool × List Member × World ε :=
  let (answer, w) := w.call (callback (members.map Member.op))
  let (members, w) := applyWrites answer.writes 0 members w
  (answer.accepted, members, w)

/-- The history of a grouped commit callback: every member reached the engine. -/
def logCommitCalls (runtime : RuntimeId) : List Member → World ε → World ε
  | [], w => w
  | member :: rest, w =>
    logCommitCalls runtime rest (w.log (.commitCall {
      path := .group, hook := member.hook.hookId, key := member.hook.targetKey
      engineId := (member.hook.caps engines).engineId
      recorded := member.hook.result.imageGeneration, current := w.env.generation runtime
      owner := w.owners.lookup member.hook.targetKey
      requiredPredecessor := member.op.sink.requiredPredecessor
      requirement := member.hook.spec.originalRequirement, installed := member.hook.installed }))

/-- Every member with the same mutation and error. -/
def failMembers (mutation : Mutation) (status : Status) (message : String) (members : List Member) :
    List Member :=
  members.map fun member ↦ { member with
    out := member.out.withError "core" status.code message
    op := { member.op with mutation := mutation } }

/-- How far a grouped commit got: not revalidated, refused by its callback, or through. -/
inductive WaveVerdict where
  | notRevalidated | notCommitted | committed
deriving DecidableEq, Repr

/-- Revalidation, where the engine implements it. -/
def revalidateWave (engine : Engine ε) (members : List Member) (w : World ε) :
    Bool × List Member × World ε :=
  match engine.revalidateGroupCtx with
  | none => (true, members, w)
  | some revalidate =>
    let (accepted, members, w) := callGroup revalidate members w
    (accepted && members.all fun member ↦ member.op.revalidated, members, w)

/-- Revalidation and the commit callback of a wave. -/
def commitWave (engine : Engine ε) (runtime : RuntimeId) (members : List Member) (w : World ε) :
    WaveVerdict × List Member × World ε :=
  let (revalidated, members, w) := revalidateWave engine members w
  if !revalidated then
    (.notRevalidated, failMembers .none .invalidState "group revalidation failed" members, w)
  else
    match engine.commitGroupCtx with
    | none =>
      (.notCommitted, failMembers .unknown .internalError "group commit callback failed" members, w)
    | some commit =>
      let (accepted, members, w) :=
        callGroup commit members (logCommitCalls engines runtime members w)
      if accepted then (.committed, members, w)
      else
        (.notCommitted, failMembers .unknown .internalError "group commit callback failed" members,
          w)

/-- Grouped verification, where there is one; the flag says that there was. -/
def verifyWave (engine : Engine ε) (verdict : WaveVerdict) (members : List Member) (w : World ε) :
    Bool × List Member × World ε :=
  match engine.verifyGroupCtx with
  | none => (false, members, w)
  | some verify =>
    if verdict ≠ .committed then (false, members, w)
    else
      let (accepted, members, w) := callGroup verify members w
      let members :=
        if accepted then members
        else members.map fun member ↦ { member with
          op := { member.op with verifyResult := .failed, verifyDiag := .zero } }
      (true, members, w)

/-- Whether a member leaves the wave in need of compensation. -/
def Member.needsCompensation (verified : Bool) (member : Member) : Bool :=
  member.op.mutation = .partly || member.op.mutation = .unknown ||
    (verified && member.op.mutation = .complete && member.op.verifyResult ≠ .ok)

/-- Whether the wave does: always when its callback refused, never when it was not even reached. -/
def compensationNeeded (verdict : WaveVerdict) (verified : Bool) (members : List Member) : Bool :=
  match verdict with
  | .committed => members.any (Member.needsCompensation verified)
  | .notCommitted => true
  | .notRevalidated => false

/-- The one chance a reversible engine gets to restore its members. -/
def compensateWave (engine : Engine ε) (verdict : WaveVerdict) (verified : Bool)
    (members : List Member) (w : World ε) : List Member × World ε :=
  match engine.compensateGroupCtx with
  | none => (members, w)
  | some compensate =>
    if compensationNeeded verdict verified members && engine.describe.supportsCompensation then
      let (accepted, members, w) := callGroup compensate members w
      let members :=
        if accepted then members
        else members.map fun member ↦ { member with op := { member.op with compensated := false } }
      let flagged := (members.filter fun member ↦ member.op.compensated).map fun member ↦
        member.hook.hookId
      (members, w.log (.compensateCall accepted flagged))
    else (members, w)

/-- The last loop under the lock: what the members recorded and who owns their keys now. -/
def recordMember (member : Member) (w : World ε) : Member × World ε :=
  let sink := member.op.sink
  let mutation :=
    if sink.recordFailed ∧ member.op.mutation = .complete then .unknown else member.op.mutation
  let (mutation, out) :=
    if mutation = .complete then
      let (declared, out) := validateCommitEffects engines member.hook sink member.out
      (if declared then mutation else .unknown, out)
    else (mutation, member.out)
  let (mutation, out, w) :=
    if mutation = .complete ∧ !member.op.compensated then
      match w.recordOwner member.hook.targetKey (member.hook.caps engines).engineId
          member.hook.spec.replacement sink.publishedOriginal with
      | (true, w) => (mutation, out, w)
      | (false, w) =>
        (.unknown, out.withError "core" Status.outOfMemory.code
          "could not record target ownership", w)
    else (mutation, out, w)
  ({ member with out := out, op := { member.op with mutation := mutation } }, w)

def recordMembers : List Member → World ε → List Member × World ε
  | [], w => ([], w)
  | member :: rest, w =>
    let (member, w) := recordMember engines member w
    let (rest, w) := recordMembers rest w
    (member :: rest, w)

/-- The members' own ledgers are appended to the commit's, one range behind the other. -/
def appendMemberLedgers : List Member → Ledger → World ε → List Member × Ledger × World ε
  | [], ledger, w => ([], ledger, w)
  | member :: rest, ledger, w =>
    let artifactStart := ledger.count
    match ledger.appendLedger member.op.sink.ledger w.env with
    | (ok, ledger, env) =>
      let recordFailed := member.op.sink.recordFailed || !ok
      let member := { member with
        artifactStart := artifactStart
        op := { member.op with
          sink := { member.op.sink with recordFailed := recordFailed }
          compensated := member.op.compensated && !recordFailed } }
      let (rest, ledger, w) := appendMemberLedgers rest ledger (w.setEnv env)
      (member :: rest, ledger, w)

/-- `hk_plan_finish_commit_attempt` for every member. -/
def finishMembers (runtime : RuntimeId) (verified : Bool) :
    List Member → Ledger → World ε → List Hook × Ledger × World ε
  | [], ledger, w => ([], ledger, w)
  | member :: rest, ledger, w =>
    let group := if verified then some ⟨member.op.verifyResult, member.op.verifyDiag⟩ else none
    let (hook, ledger, w) := finishCommitAttempt engines .group runtime member.hook member.out
      ledger member.artifactStart member.op.mutation member.op.sink group false
      member.op.compensated w
    let (hooks, ledger, w) := finishMembers runtime verified rest ledger w
    (hook :: hooks, ledger, w)

/-- The artifacts of the compensated members. -/
def markCompensatedMembers : List Member → Ledger → Ledger
  | [], ledger => ledger
  | member :: rest, ledger =>
    let ledger :=
      if member.op.compensated ∧ member.op.mutation ≠ .none ∧ !member.op.sink.recordFailed then
        (ledger.markCompensated member.artifactStart member.op.sink.ledger.count).getD ledger
      else ledger
    markCompensatedMembers rest ledger

/-- Everything `hk_plan_commit_group` does from `hk_ownership_lock` to `hk_ownership_unlock`. -/
def commitGroupLocked (engine : Engine ε) (runtime : RuntimeId) (members : List Member)
    (w : World ε) : Bool × List Member × World ε :=
  let (verdict, members, w) := commitWave engines engine runtime members w
  let (verified, members, w) := verifyWave engine verdict members w
  let (members, w) := compensateWave engine verdict verified members w
  let (members, w) := recordMembers engines members w
  (verified, members, w)

/-- The private ledgers of the operations. -/
def allocMembers : List Hook → World ε → Bool × World ε
  | [], w => (true, w)
  | _ :: rest, w =>
    match w.alloc with
    | (false, w) => (false, w)
    | (true, w) => allocMembers rest w

/-- Write the settled hooks of a wave back into the plan. -/
def writeBack (hooks : List Hook) : List Nat → List Hook → List Hook
  | index :: order, hook :: rest => writeBack (hooks.set index hook) order rest
  | _, _ => hooks

/-- The counters after some hooks were settled. -/
def CommitState.count (st : CommitState ε) (settled : List Hook) : CommitState ε :=
  { st with
    active := st.active + settled.countP fun hook ↦ hook.result.outcome = .active
    failed := st.failed + settled.countP fun hook ↦ hook.result.outcome ≠ .active }

/-- `hk_plan_commit_group`. -/
def commitGroup (plan : CommitPlan) (count : Nat) (st : CommitState ε) : Flow (CommitState ε) :=
  match st.world.env.allocAll 4 with
  | (false, env) => .stop { st with world := st.world.setEnv env }
  | (true, env) =>
    let indices := (plan.order.drop st.position).take count
    let hooks := hooksAt st.hooks indices
    match allocMembers hooks (st.world.setEnv env) with
    | (false, w) => .stop { st with world := w }
    | (true, w) =>
      let engine := ((hooks.head?.map (Hook.engine engines))).getD .absent
      let members := hooks.map (openOperation plan engine.revalidateGroupCtx.isNone)
      let (verified, members, w) := commitGroupLocked engines engine plan.runtime members w
      let (members, ledger, w) := appendMemberLedgers members st.ledger w
      let (settled, ledger, w) := finishMembers engines plan.runtime verified members ledger w
      let ledger := markCompensatedMembers members ledger
      let st := { st with
        world := w, ledger := ledger, hooks := writeBack st.hooks indices settled
        attempted := st.attempted + count, position := st.position + count }
      .next (st.count settled)

/-! ## The loop -/

/-- Settle one hook and go on. -/
def CommitState.settled (st : CommitState ε) (index : Nat) (hook : Hook) (ledger : Ledger)
    (w : World ε) : CommitState ε :=
  { st with world := w, ledger := ledger, hooks := st.hooks.set index hook }.count [hook]

/-- The result of a hook whose dependency is not active. -/
def dependencyResult (result : HookResult) : HookResult :=
  { result with
    outcome := .failedSafe, mutation := .none, retryable := false, currentlyValid := true
    errorDomain := some "core", errorCode := Status.invalidState.code
    errorMessage := some "commit dependency did not become active" }

/-- Whether an earlier position of the commit order holds a member of the hook's domain. -/
def domainSeen (plan : CommitPlan) (hooks : List Hook) (position : Nat) (hook : Hook) : Bool :=
  (hooksAt hooks (plan.order.take position)).any fun earlier ↦
    earlier.spec.domain = hook.spec.domain

/-- A prepared hook that is committed by itself. -/
def commitSingle (plan : CommitPlan) (index : Nat) (hook : Hook) (st : CommitState ε) :
    CommitState ε :=
  if hook.result.imageGeneration ≠ st.world.env.generation plan.runtime then
    let out := { hook.result with
      outcome := .stalePlan, retryable := true, currentlyValid := false }
    let (hook, w) := settle engines .single hook out none 0 st.world
    st.settled index hook st.ledger w
  else
    let st := { st with attempted := st.attempted + 1 }
    if !dependenciesActive st.hooks hook then
      let (hook, w) := settle engines .single hook (dependencyResult hook.result) none 0 st.world
      st.settled index hook st.ledger w
    else
      let (hook, ledger, w) := commitOneHook engines .single plan.runtime plan.planId plan.ownerId
        hook.preparedContinuation hook hook.result st.ledger st.world
      st.settled index hook ledger w

/-- Every prepared member of the hook's domain is refused. -/
def refuseDomain (plan : CommitPlan) (domain : Id) (st : CommitState ε) : CommitState ε :=
  let (hooks, blocked, w) := markDomainCommitPreflightFailed engines
    (st.world.env.generation plan.runtime) domain st.hooks st.world
  { st with
    world := w, hooks := hooks
    attempted := st.attempted + blocked, failed := st.failed + blocked }

/-- Whether this is the domain's first visit and its preflight does not pass. -/
def domainRefused (plan : CommitPlan) (hook : Hook) (st : CommitState ε) : Option Id :=
  match hook.spec.domain with
  | none => none
  | some domain =>
    if !domainSeen plan st.hooks st.position hook &&
        !domainCommitPreflight (st.world.env.generation plan.runtime) st.hooks domain then
      some domain
    else none

/-- One pass of the loop in `hk_plan_commit`. -/
def commitIter (plan : CommitPlan) (st : CommitState ε) : Flow (CommitState ε) :=
  match plan.order[st.position]? with
  | none => .next { st with position := st.position + 1 }
  | some index =>
    match st.hooks[index]? with
    | none => .next { st with position := st.position + 1 }
    | some hook =>
      if hook.result.outcome ≠ .prepared then .next { st with position := st.position + 1 }
      else
        let count := commitGroupCount engines st.world.owners
          (st.world.env.generation plan.runtime) (hooksAt st.hooks (plan.order.drop st.position))
        if count > 1 then commitGroup engines plan count st
        else
          let st :=
            match domainRefused plan hook st with
            | some domain => refuseDomain engines plan domain st
            | none => commitSingle engines plan index hook st
          .next { st with position := st.position + 1 }

/-- The loop of `hk_plan_commit`. -/
def commitLoop (plan : CommitPlan) (hooks : List Hook) (w : World ε) : Flow (CommitState ε) :=
  run (fun st ↦ decide (st.position < plan.order.length)) (commitIter engines plan)
    plan.order.length
    { world := w, hooks := hooks, ledger := .empty, position := 0, attempted := 0, active := 0
      failed := 0 }

/-- The state of the plan after a commit that went through. -/
def CommitState.planState (st : CommitState ε) : PlanState :=
  if st.failed = 0 then .committed
  else if st.active = 0 ∧ st.attempted > 0 then .failed
  else .partly

/-- `hk_runtime_append_artifacts`. -/
def Runtime.appendArtifacts (runtime : Runtime) (source : Ledger) (env : Env ε) :
    Runtime × Env ε :=
  match runtime.artifacts with
  | none => (runtime, env)
  | some ledger =>
    match ledger.appendLedger source env with
    | (_, ledger, env) => ({ runtime with artifacts := some ledger }, env)

/-- Both appends at the end of a commit or drain. -/
def publishArtifacts (runtime : Runtime) (source : Ledger) (w : World ε) : Runtime × World ε :=
  let (runtime, env) := runtime.appendArtifacts source w.env
  (runtime, (w.setEnv env).appendProcessLedger source)

/-- What `hk_plan_commit` allocates before its loop: the result array, the ledger and the commit
order. -/
def allocCommit (plan : Plan) (w : World ε) : Option (List Nat) × World ε :=
  match (if plan.hooks.length > 0 then w.alloc else (true, w)) with
  | (false, w) => (none, w)
  | (true, w) =>
    match w.alloc with
    | (false, w) => (none, w)
    | (true, w) => buildCommitOrder plan.domains plan.hooks w

/-- `hk_plan_commit`.  The report holds the results of the hooks and the ledger of the loop. -/
def commitPlan (runtime : Runtime) (plan : Plan) (w : World ε) :
    Status × Plan × Runtime × World ε :=
  if plan.state ≠ .prepared ∧ plan.state ≠ .partly then (.invalidState, plan, runtime, w)
  else
    match allocCommit plan w with
    | (none, w) => (.outOfMemory, plan, runtime, w)
    | (some order, w) =>
      match commitLoop engines ⟨plan.planId, runtime.ownerId, plan.runtime, plan.domains, order⟩
          plan.hooks w with
      | .stop st => (.outOfMemory, { plan with hooks := st.hooks }, runtime, st.world)
      | .next st =>
        match createReport plan.hooks.length st.world with
        | (false, w) => (.outOfMemory, { plan with hooks := st.hooks }, runtime, w)
        | (true, w) =>
          let (runtime, w) := publishArtifacts runtime st.ledger w
          (.ok, { plan with hooks := st.hooks, state := st.planState }, runtime, w)

end HookKit
