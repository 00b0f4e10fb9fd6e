import HookKit.Plan.Attempts
import HookKit.Plan.Compensation

/-!
# Fallback honesty

A caller may only try another engine when nothing was changed, and may only call a hook installed
when all of it is.  This file says of every settled hook what its engine must have answered, for
results that invite a retry and for results that say installed.

* `Attempt` — what an engine answered.
* `FallbackHonest` — what a result says about it.
* `commitHonest`, `drainHonest` — both calls that install hooks keep it.
-/

set_option autoImplicit false

namespace HookKit

open Loop Trace

variable {ε : Type} (engines : EngineRef → Engine ε)

/-- What the engine of a hook answered when it was asked to install it: the mutation, the artifacts
it tried to record, and the verdict of the verification. -/
structure Attempt where
  mutation : Mutation
  records : List Artifact
  verdict : VerifyResult

/-- The effects of the artifacts. -/
def Attempt.effects (a : Attempt) : Mask :=
    a.records.foldl (fun effects r ↦ effects ||| r.effects) 0

/-- What the result of a hook says about the attempt to install it, if there was one. -/
structure FallbackHonest (caps : Capabilities) (id : Id) (attempt : Option Attempt)
    (result : HookResult) (ledger : Ledger) : Prop where
  refused : result.refusedCleanly = true → ∀ a, attempt = some a →
    a.mutation = .none ∧ caps.Declares a.effects
  active : result.outcome = .active → ∃ a, attempt = some a ∧ a.mutation = .complete ∧
    result.mutation = .complete ∧ result.observedCommitEffects = a.effects ∧
    caps.Declares a.effects ∧ (∀ r ∈ a.records, ∃ b ∈ ledger.items, b.requestId = id ∧ b.Copies r) ∧
    a.verdict ≠ .failed

theorem FallbackHonest.grows {caps : Capabilities} {id : Id} {attempt : Option Attempt}
    {result : HookResult} {ledger ledger' : Ledger}
    (h : FallbackHonest caps id attempt result ledger) (hgrows : ledger.Grows ledger') :
    FallbackHonest caps id attempt result ledger' := by
  refine ⟨h.refused, fun hactive ↦ ?_⟩
  obtain ⟨a, hattempt, hcomplete, hmutation, heffects, hdeclared, hrecords, hverdict⟩ :=
    h.active hactive
  refine ⟨a, hattempt, hcomplete, hmutation, heffects, hdeclared, fun r hr ↦ ?_, hverdict⟩
  obtain ⟨b, hb, hrest⟩ := hrecords r hr
  exact ⟨b, hgrows.subset hb, hrest⟩

theorem HookResult.refusedCleanly_mutation {result : HookResult}
    (h : result.refusedCleanly = true) : result.mutation = .none := by
  simp only [refusedCleanly, Bool.and_eq_true, decide_eq_true_eq] at h
  exact h.1

theorem HookResult.refusedCleanly_outcome {result : HookResult}
    (h : result.refusedCleanly = true) :
    result.outcome = .noRoute ∨ result.outcome = .failedSafe := by
  simp only [refusedCleanly, Bool.and_eq_true, Bool.or_eq_true, decide_eq_true_eq] at h
  exact h.2

/-- Whoever was not asked has nothing to say, as long as the hook is not installed. -/
theorem FallbackHonest.unasked {caps : Capabilities} {id : Id}
    {result : HookResult} {ledger : Ledger}
    (h : result.outcome ≠ .active) : FallbackHonest caps id none result ledger :=
  ⟨fun _ _ ↦ nofun, fun hactive ↦ absurd hactive h⟩

/-! ## One hook -/

/-- The attempt to install a hook by itself; an engine that may not build on the owner of the key is
not asked. -/
def singleAttempt (path : Path) (runtime : RuntimeId) (planId ownerId : Id)
    (continuation : Option ContinuationInfo) (hook : Hook) (ledger : Ledger) (w : World ε) :
    Option Attempt :=
  if ownershipConflict (hook.caps engines) hook.spec.targetKind
    (w.owners.lookup hook.targetKey) then
    none
  else
    (singleAnswer engines planId ownerId continuation hook ledger w).map fun answer ↦ {
      mutation := answer.mutation
      records := answer.sink.records
      verdict := verdictOf engines hook none
        (singleDispatched engines path runtime planId ownerId continuation hook ledger w).2.2 }

/-- **A hook that is committed by itself.** -/
theorem commitOneHook_honest (path : Path) (runtime : RuntimeId) (planId ownerId : Id)
    (continuation : Option ContinuationInfo) (hook : Hook) (out : HookResult) (ledger : Ledger)
    (w : World ε) :
    let r := commitOneHook engines path runtime planId ownerId continuation hook out ledger w
    FallbackHonest (hook.caps engines) hook.hookId
      (singleAttempt engines path runtime planId ownerId continuation hook ledger w) r.1.result
      r.2.1 := by
  dsimp only
  by_cases hconflict : ownershipConflict (hook.caps engines) hook.spec.targetKind
      (w.owners.lookup hook.targetKey) = true
  · rw [singleAttempt, if_pos hconflict, commitOneHook]
    dsimp only
    rw [if_pos hconflict]
    exact .unasked (by rintro ⟨⟩)
  · rw [singleAttempt, if_neg hconflict]
    have hrolled := commitOneHook_rollsUp engines path runtime planId ownerId continuation hook out
      ledger w
    generalize commitOneHook engines path runtime planId ownerId continuation hook out ledger w = r
      at hrolled ⊢
    obtain ⟨hook', ledger', w'⟩ := r
    rcases hrolled with ⟨houtcome, -, -⟩ | ⟨mutation, out', -, hnone, hcomplete, hrolled⟩
    · refine ⟨fun hrefused ↦ ?_, fun hactive ↦ ?_⟩
      · have hclean := HookResult.refusedCleanly_outcome hrefused
        rw [houtcome] at hclean
        rcases hclean with h | h <;> cases h
      · rw [houtcome] at hactive
        cases hactive
    · rw [singleAnswer]
      dsimp only at hrolled ⊢
      rw [singleDispatched] at hrolled hnone hcomplete ⊢
      rcases dispatchCommit_answer engines path runtime hook
        (openSink planId ownerId continuation hook ledger w) w with
        ⟨hanswer, heq⟩ | ⟨answer, env, hanswer, hmutation, hwrites⟩
      · -- an engine without a commit callback is not trusted either way
        rw [heq] at hnone hcomplete
        refine ⟨fun hrefused ↦ ?_, fun hactive ↦ ?_⟩
        · obtain ⟨h, -⟩ := hrolled.none (HookResult.refusedCleanly_mutation hrefused)
          cases hnone h
        · obtain ⟨-, htrusted, -⟩ := hrolled.active hactive
          cases hcomplete htrusted.complete
      · rw [hanswer]
        generalize dispatchCommit engines path runtime hook
          (openSink planId ownerId continuation hook ledger w) w = d
          at hrolled hnone hcomplete hmutation hwrites ⊢
        obtain ⟨m₁, sink₁, w₁⟩ := d
        dsimp only at hrolled hnone hcomplete hmutation hwrites ⊢
        have heffects : sink₁.observedEffects = Attempt.effects
            ⟨answer.mutation, answer.sink.records, verdictOf engines hook none w₁⟩ :=
              hwrites.effects
        refine ⟨fun hrefused a ha ↦ ?_, fun hactive ↦ ⟨_, rfl, ?_⟩⟩
        · cases ha
          obtain ⟨h, hdeclared⟩ := hrolled.none (HookResult.refusedCleanly_mutation hrefused)
          exact ⟨hmutation.symm.trans (hnone h), heffects ▸ hdeclared⟩
        · obtain ⟨hresult, htrusted, hverdict⟩ := hrolled.active hactive
          refine ⟨hmutation.symm.trans (hcomplete htrusted.complete), hresult,
            hrolled.commitEffects.trans heffects, heffects ▸ htrusted.declared, fun r hr ↦ ?_,
            hverdict ?_⟩
          · obtain ⟨b, hb, hrequest, hcopies⟩ := hwrites.stored htrusted.recorded r hr
            obtain ⟨c, hc, hmarked, -⟩ := Pointwise.mem_left hrolled.marks hb
            exact ⟨c, hc, hmarked.requestId.trans hrequest, hmarked.copies.trans hcopies⟩
          · -- a hook without an engine gets no answer
            intro hunmatched
            rw [Hook.engine, hunmatched] at hanswer
            cases hanswer

/-! ## A member of a wave -/

/-- The attempt to install a member of a wave, as its operation `m` tells when the last callback of
the wave has returned; `w` is the process in which the member is settled. -/
def memberAttempt (plan : CommitPlan) (count : Nat) (st : CommitState ε) (n : Nat) (m : Member)
    (w : World ε) : Attempt where
  mutation := m.op.mutation
  records := (waveAnswers engines plan count st).records n
  verdict := verdictOf engines m.hook (m.group (waveAnswers engines plan count st).verified) w

section Member

variable {engines} {plan : CommitPlan} {count n : Nat} {st : CommitState ε} {hook hook' : Hook}
  {m m' : Member} {l : Ledger} {w : World ε}

theorem SettledMember.verdict_eq (h : SettledMember engines plan count st n hook m m' l w hook') :
    verdictOf engines m'.hook (m'.group (waveAnswers engines plan count st).verified) w =
      verdictOf engines m.hook (m.group (waveAnswers engines plan count st).verified) w := by
  obtain ⟨mid, hrecords, hstores⟩ := h.recorded
  rw [verdictOf, verdictOf, hstores.hook, hrecords.hook, Member.group, Member.group]
  split
  · exact hstores.verifyResult.trans hrecords.verifyResult
  · rfl

/-- What a member recorded is in the ledger of the commit when the wave is over. -/
theorem SettledMember.recorded_mem (h : SettledMember engines plan count st n hook m m' l w hook')
    (hok : m'.op.sink.recordFailed = false) {r : Artifact}
    (hr : r ∈ (waveAnswers engines plan count st).records n) :
    ∃ b ∈ (waveSettled engines plan count st).2.1.items, b.requestId =
    hook.hookId ∧ b.Copies r := by
  obtain ⟨mid, hrecords, hstores⟩ := h.recorded
  have hfailed : m.op.sink.recordFailed = false := hrecords.sink ▸ hstores.failed hok
  obtain ⟨b, hb, hrequest, hcopies⟩ := h.sink.stored hfailed r hr
  have hown : b ∈ m'.op.sink.ledger.items := by
    rw [hstores.own, hrecords.sink]
    exact hb
  obtain ⟨j, hj⟩ := List.getElem?_of_mem hown
  have hlt : j < m'.op.sink.ledger.count := (List.getElem?_eq_some_iff.mp hj).1
  have hstored := h.own_getElem? hok hlt
  rw [hj] at hstored
  -- from here on only marks change
  obtain ⟨c, hc, hbc, -⟩ :=
    Pointwise.getElem?_left (waveFinished_marks engines plan count st) hstored
  have hsettled : m'.artifactStart + j < (waveSettled engines plan count st).2.1.items.length :=
    lt_of_lt_of_eq (List.getElem?_eq_some_iff.mp hc).1
      (waveSettled_marks engines plan count st).2.1.symm
  obtain ⟨c', hc', hcd, -⟩ := (waveSettled_marks engines plan count st).1 _ _
    (List.getElem?_eq_getElem hsettled)
  obtain rfl : c = c' := Option.some.inj (hc.symm.trans hc')
  exact ⟨_, List.getElem_mem hsettled, (hcd.requestId.trans hbc.requestId).trans hrequest,
    (hcd.copies.trans hbc.copies).trans hcopies⟩

/-- **A member of a wave.** -/
theorem SettledMember.honest (h : SettledMember engines plan count st n hook m m' l w hook')
    (hmatched : hook.matchedEngine ≠ none) :
    FallbackHonest (hook.caps engines) hook.hookId
    (some (memberAttempt engines plan count st n m w))
      hook'.result (waveSettled engines plan count st).2.1 := by
  obtain ⟨ledger', hrolled⟩ := h.rollsUp.result
  have heffects : m'.op.sink.observedEffects =
      (memberAttempt engines plan count st n m w).effects := h.effects.trans h.sink.effects
  have hcaps : m'.hook.caps engines = hook.caps engines := by rw [h.storedHook]
  refine ⟨fun hrefused a ha ↦ ?_, fun hactive ↦ ⟨_, rfl, ?_⟩⟩
  · cases ha
    obtain ⟨hnone, hdeclared⟩ := hrolled.none (HookResult.refusedCleanly_mutation hrefused)
    refine ⟨?_, hcaps ▸ heffects ▸ hdeclared⟩
    rcases h.mutation with heq | heq
    · exact heq.symm.trans hnone
    · rw [hnone] at heq
      cases heq
  · obtain ⟨hresult, htrusted, hverdict⟩ := hrolled.active hactive
    refine ⟨?_, hresult, hrolled.commitEffects.trans heffects, ?_, fun r hr ↦
      h.recorded_mem htrusted.recorded hr, ?_⟩
    · rcases h.mutation with heq | heq
      · exact heq.symm.trans htrusted.complete
      · rw [htrusted.complete] at heq
        cases heq
    · exact hcaps ▸ heffects ▸ htrusted.declared
    · have hne := hverdict (h.storedHook ▸ hmatched)
      rw [h.verdict_eq] at hne
      exact hne

end Member

/-! ## The calls -/

/-- The attempt a pass makes to install the hook at an index, which it leaves as `hook'`. -/
inductive PassAttempt (engines : EngineRef → Engine ε) (plan : CommitPlan)
    (st st' : CommitState ε) (i : Nat) (hook hook' : Hook) : Option Attempt → Prop where
  /-- The pass hands no hook to an engine. -/
  | unasked (hunasked : Unasked st.world st'.world) :
      PassAttempt engines plan st st' i hook hook' none
  | single (hvisits : Visits plan st i hook)
      (hcommitted : commitOneHook engines .single plan.runtime plan.planId plan.ownerId
        hook.preparedContinuation hook hook.result st.ledger st.world =
          (hook', st'.ledger, st'.world)) :
    PassAttempt engines plan st st' i hook hook' (singleAttempt engines .single plan.runtime
      plan.planId plan.ownerId hook.preparedContinuation hook st.ledger st.world)
  | member {count n : Nat} {m : Member} {l : Ledger} {w : World ε}
      (hwave : WavePass engines plan count st st')
      (hindex : ((plan.order.drop st.position).take count)[n]? = some i)
      (hanswered : (waveAnswers engines plan count st).members[n]? = some m)
      (hvisited : (waveVisited engines plan count st)[n]? = some (l, w)) :
    PassAttempt engines plan st st' i hook hook' (some (memberAttempt engines plan count st n m w))

theorem HookPass.honest {engines : EngineRef → Engine ε} {plan : CommitPlan}
    {st st' : CommitState ε} {i : Nat} {hook hook' : Hook}
    (h : HookPass engines plan st st' i hook hook')
    (hvalid : ∀ i ∈ plan.order, i < st.hooks.length) : hook' = hook ∨
      ∃ attempt, PassAttempt engines plan st st' i hook hook' attempt ∧
        FallbackHonest (hook.caps engines) hook.hookId attempt hook'.result st'.ledger := by
  cases h with
  | kept => exact .inl rfl
  | unasked hprepared houtcome hunasked =>
    refine .inr ⟨none, .unasked hunasked, .unasked ?_⟩
    rcases houtcome with h | h <;> rw [h] <;> exact nofun
  | single hvisits hcommitted =>
    have hhonest := commitOneHook_honest engines .single plan.runtime plan.planId plan.ownerId
      hook.preparedContinuation hook hook.result st.ledger st.world
    rw [hcommitted] at hhonest
    exact .inr ⟨_, .single hvisits hcommitted, hhonest⟩
  | @member count n m m' l w _ hwave hindex hsettled =>
    have hmatched := ((hwave.members hvalid).1 hook (List.mem_of_getElem? hsettled.hookAt)).2
    have hledger : st'.ledger = (waveSettled engines plan count st).2.1 := by
      rw [commitGroup_next engines hwave.next]
      rfl
    rw [hledger]
    exact .inr ⟨_, .member hwave hindex hsettled.answeredAt hsettled.visitedAt,
      hsettled.honest hmatched⟩

/-- Every hook a call of `hk_plan_commit` changes was changed in one pass of its loop, and its
result is honest about the attempt of that pass. -/
def CommitHonest (engines : EngineRef → Engine ε) (runtime : Runtime) (plan : Plan) (w : World ε) :
    Prop :=
  ∀ (i : Nat) (hook hook' : Hook), plan.hooks[i]? = some hook →
    (commitPlan engines runtime plan w).2.1.hooks[i]? = some hook' → hook' = hook ∨
      ∃ order w₁, allocCommit plan w = (some order, w₁) ∧
        ∃ st ∈ commitVisited engines (plan.toCommit runtime order) plan.hooks w₁,
          st.hooks[i]? = some hook ∧
          ∃ attempt, PassAttempt engines (plan.toCommit runtime order) st
            (commitIter engines (plan.toCommit runtime order) st).state i hook hook' attempt ∧
            FallbackHonest (hook.caps engines) hook.hookId attempt hook'.result
              (commitLoop engines (plan.toCommit runtime order) plan.hooks w₁).state.ledger

theorem commitHonest (runtime : Runtime) (plan : Plan) (w : World ε) :
    CommitHonest engines runtime plan w := by
  intro i hook hook' hget hget'
  rcases commitPlan_cases engines runtime plan w with
    ⟨_, _, -, heq, -⟩ | ⟨order, w₁, status, plan', runtime', w', heq, hran⟩
  · rw [heq] at hget'
    exact .inl (Option.some.inj (hget'.symm.trans hget))
  · obtain ⟨state, hplan', -⟩ := hran.planAfter
    rw [heq, hplan'] at hget'
    have hvalid : ∀ i ∈ order, i < plan.hooks.length := fun i hi ↦ (hran.prepared i hi).lt
    rcases @commitLoop_hookPass _ engines (plan.toCommit runtime order) _ _ hvalid hran.nodup _ _ _
      hget hget' with rfl | ⟨st, hmem, hbefore, hpass⟩
    · exact .inl rfl
    · have hlength := (commitVisited_induction hmem (fun st ↦ st.hooks.length = plan.hooks.length)
        hran.nodup hvalid rfl fun st _ flow hst hp ↦ ?_).1
      · rcases hpass.honest fun i hi ↦ hlength ▸ hvalid i hi with rfl | ⟨attempt, hattempt, hhonest⟩
        · exact .inl rfl
        · exact .inr ⟨order, w₁, hran.allocated, st, hmem, hbefore, attempt, hattempt,
            hhonest.grows (commitVisited_grows engines hvalid hran.nodup hmem)⟩
      · exact (hp.commits (fun i hi ↦ hst ▸ hvalid i hi) hran.nodup).length_eq.symm.trans hst

/-- The attempt a drain makes to install a queued hook, which it meets in the process `w`. -/
inductive DrainAttempt (engines : EngineRef → Engine ε) (runtime : RuntimeId) (ownerId : Id)
    (hook : Hook) (ledger : Ledger) (w : World ε) : Option Attempt → Prop where
  | unasked (hunasked : Unasked w (drainOne engines runtime ownerId hook ledger w).2.2) :
    DrainAttempt engines runtime ownerId hook ledger w none
  /-- The hook could be prepared. -/
  | single {hook₁ : Hook} {out : HookResult} {w₁ : World ε}
      (hprepared : drainPrepare engines runtime hook w = (.ok, hook₁, out, w₁)) :
    DrainAttempt engines runtime ownerId hook ledger w
      (singleAttempt engines .drain runtime out.planId ownerId none hook₁ ledger w₁)

theorem drainOne_honest (runtime : RuntimeId) (ownerId : Id) (hook : Hook) (ledger : Ledger)
    (w : World ε) :
    let r := drainOne engines runtime ownerId hook ledger w
    ∃ attempt, DrainAttempt engines runtime ownerId hook ledger w attempt ∧
      FallbackHonest (hook.caps engines) hook.hookId attempt r.1.result r.2.1 := by
  obtain ⟨htouched, hquiet⟩ := drainPrepare_spec engines runtime hook w
  cases hprepared : drainPrepare engines runtime hook w with
  | mk result rest =>
    obtain ⟨hook₁, out, w₁⟩ := rest
    rw [hprepared] at htouched hquiet
    dsimp only at htouched hquiet
    have hlogged : ∀ o, o ≠ .active → w.Adds (Event.ofPrepare [hook.hookId])
        (w₁.log (.prepareSettled hook₁.hookId o)) := fun o ho ↦
      hquiet.toAdds.log ⟨by rw [htouched.hookId]; exact List.mem_singleton_self _, ho⟩
    cases result with
    | ok =>
      have hhonest := commitOneHook_honest engines .drain runtime out.planId ownerId none hook₁ out
        ledger w₁
      refine ⟨_, .single hprepared, ?_⟩
      simp only [drainOne, hprepared]
      have hcaps : hook₁.caps engines = hook.caps engines := by
        rw [Hook.caps, Hook.caps, Hook.engine, Hook.engine, htouched.matchedEngine]
      rw [← hcaps, ← htouched.hookId]
      exact hhonest
    | notApplicable =>
      have hunasked : Unasked w (drainOne engines runtime ownerId hook ledger w).2.2 := by
        simp only [drainOne, hprepared]
        exact (hlogged .pending (by simp)).unasked fun _ h ↦ h
      refine ⟨none, .unasked hunasked, ?_⟩
      simp only [drainOne, hprepared]
      exact .unasked (by simp)
    | failed =>
      have hunasked : Unasked w (drainOne engines runtime ownerId hook ledger w).2.2 := by
        simp only [drainOne, hprepared]
        exact ((hlogged .failedSafe (by simp)).trans ((freeHook_quiet engines _ _).toAdds.mono
          fun _ ↦ Event.ofState.ofPrepare)).unasked fun _ h ↦ h
      refine ⟨none, .unasked hunasked, ?_⟩
      simp only [drainOne, hprepared]
      exact .unasked (by simp)

/-- Every result a call of `hk_runtime_drain_pending` reports is honest about the attempt it made
for the hook. -/
def DrainHonest (engines : EngineRef → Engine ε) (runtimeId : RuntimeId) (runtime : Runtime)
    (w : World ε) : Prop :=
  ∀ (i : Nat) (result : HookResult),
    (drainPending engines runtimeId runtime w).2.1[i]? = some result →
      ∃ hook ledger w₁, runtime.pending[i]? = some hook ∧
        (drainVisited engines runtimeId runtime.ownerId runtime.pending .empty
          w.alloc.2.alloc.2)[i]? = some (ledger, w₁) ∧
        ∃ attempt, DrainAttempt engines runtimeId runtime.ownerId hook ledger w₁ attempt ∧
          FallbackHonest (hook.caps engines) hook.hookId attempt result
            (drainLoop engines runtimeId runtime.ownerId runtime.pending .empty
              w.alloc.2.alloc.2).2.1

theorem drainHonest (runtimeId : RuntimeId) (runtime : Runtime) (w : World ε) :
    DrainHonest engines runtimeId runtime w := by
  intro i result hresult
  rcases drainPending_cases engines runtimeId runtime w with
    ⟨_, _, heq, -⟩ | ⟨w₁, _, results, _, _, _, heq, hran⟩
  · rw [heq] at hresult
    cases hresult
  · rw [heq] at hresult
    obtain ⟨rfl⟩ := hran.start
    rcases hran.results with rfl | rfl
    · cases hresult
    · rw [List.getElem?_map, Option.map_eq_some_iff] at hresult
      obtain ⟨drained, hdrained, rfl⟩ := hresult
      obtain ⟨hook, l, w₂, hhook, hvisited, rfl, hgrows⟩ := drainLoop_getElem? engines hdrained
      obtain ⟨attempt, hattempt, hhonest⟩ :=
        drainOne_honest engines runtimeId runtime.ownerId hook l
        w₂
      exact ⟨hook, l, w₂, hhook, hvisited, attempt, hattempt, hhonest.grows hgrows⟩

/-- **Every result is honest**, whatever the engines answer and on every path that installs hooks.
-/
theorem fallbackHonest (engines : EngineRef → Engine ε) (runtimeId : RuntimeId) (runtime : Runtime)
    (plan : Plan) (w : World ε) :
    CommitHonest engines runtime plan w ∧ DrainHonest engines runtimeId runtime w :=
  ⟨commitHonest engines runtime plan w, drainHonest engines runtimeId runtime w⟩

/-! ## Late answers -/

/-- The members of a wave when the commit callback has returned, before anything else is called. -/
def waveCommitted (plan : CommitPlan) (count : Nat) (st : CommitState ε) :
    WaveVerdict × List Member × World ε :=
  let hooks := waveHooks plan count st
  let engine := waveEngine engines hooks
  commitWave engines engine plan.runtime
    (hooks.map (openOperation plan engine.revalidateGroupCtx.isNone))
    (allocMembers hooks (st.world.setEnv (st.world.env.allocAll 4).2)).2

/-- The members when the verification callback has returned. -/
def waveChecked (plan : CommitPlan) (count : Nat) (st : CommitState ε) :
    Bool × List Member × World ε :=
  let (verdict, members, w) := waveCommitted engines plan count st
  verifyWave (waveEngine engines (waveHooks plan count st)) verdict members w

/-- An engine whose verification fails, and whose compensation callback flags nobody but says that
nothing was changed for the first hook, and that the second is verified. -/
def secondThoughts : Engine Unit :=
  .transactional (fun _ ↦ .failed) fun op ↦
    if op.spec.replacement = 1 then { op.same with mutation := .none }
    else { op.same with verifyResult := .ok }

/-- A wave is settled by what its last callback leaves in the operations: the commit callback
reported the first hook complete, and a retry is invited; the verification of the second hook
failed, and it is active. -/
theorem late_answers_count :
    let engines := fun _ ↦ secondThoughts
    let s := preparedTwo secondThoughts
    GroupCommit engines s s.firstPlan [0, 1] s.firstState.world 2 s.firstState
        (commitGroup engines (s.firstCommit [0, 1]) 2 s.firstState).state ∧
      (waveCommitted engines (s.firstCommit [0, 1]) 2 s.firstState).1 = .committed ∧
      (∃ m hook', (waveCommitted engines (s.firstCommit [0, 1]) 2 s.firstState).2.1[0]? = some m ∧
        (waveSettled engines (s.firstCommit [0, 1]) 2 s.firstState).1[0]? = some hook' ∧
        m.op.mutation = .complete ∧ hook'.result.refusedCleanly = true) ∧
      ∃ m hook', (waveChecked engines (s.firstCommit [0, 1]) 2 s.firstState).2.1[1]? = some m ∧
        (waveSettled engines (s.firstCommit [0, 1]) 2 s.firstState).1[1]? = some hook' ∧
        m.op.verifyResult = .failed ∧ hook'.result.outcome = .active := by
  refine ⟨.first (by decide) (by decide) (by decide) (by decide) (by decide) (by decide)
    (by decide), by decide, ?_, ?_⟩
  · exact ⟨_, _, rfl, rfl, by decide, by decide⟩
  · exact ⟨_, _, rfl, rfl, by decide, by decide⟩

end HookKit
