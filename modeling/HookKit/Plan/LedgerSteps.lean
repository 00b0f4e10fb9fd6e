import HookKit.Plan.Wave

/-!
# The ledger of a commit

The loop of `hk_plan_commit` only adds to its ledger, and what it adds names the hook it was
recorded for.

* `Answered.single`, `commitOneHook_rollsUp` — the critical section of one hook, from the answer of
  its engine.
* `CommitState.Adds`, `commitIter_adds` — what one pass adds.
* `commitLoop_adds_after` — what the loop does after a pass.
-/

set_option autoImplicit false

namespace HookKit

open Loop

variable {ε : Type} (engines : EngineRef → Engine ε)

/-! ## One hook -/

/-- The sink a hook is committed with when it is committed by itself. -/
def openSink (planId ownerId : Id) (continuation : Option ContinuationInfo) (hook : Hook)
    (ledger : Ledger) (w : World ε) : Sink where
  ledger := ledger
  planId := planId
  runtimeOwnerId := ownerId
  requestId := hook.hookId
  publishedOriginal := 0
  continuation := continuation
  requiredPredecessor := (w.owners.lookup hook.targetKey).map Owner.headReplacement
  recordFailed := false
  observedEffects := 0

/-- What the engine answers to the commit of one hook; an engine without a commit callback answers
nothing. -/
def singleAnswer (planId ownerId : Id) (continuation : Option ContinuationInfo) (hook : Hook)
    (ledger : Ledger) (w : World ε) : Option CommitAnswer :=
  ((hook.engine engines).commitAnswer hook
    (openSink planId ownerId continuation hook ledger w) w.env).map Prod.fst

/-- What the engine's answer leaves: its mutation, its sink, and the process. -/
def singleDispatched (path : Path) (runtime : RuntimeId) (planId ownerId : Id)
    (continuation : Option ContinuationInfo) (hook : Hook) (ledger : Ledger) (w : World ε) :
    Mutation × Sink × World ε :=
  dispatchCommit engines path runtime hook (openSink planId ownerId continuation hook ledger w) w

theorem dispatchCommit_answer (path : Path) (runtime : RuntimeId) (hook : Hook) (sink : Sink)
    (w : World ε) :
    ((hook.engine engines).commitAnswer hook sink w.env = none ∧
        dispatchCommit engines path runtime hook sink w = (.unknown, sink, w)) ∨
      ∃ answer env, (hook.engine engines).commitAnswer hook sink w.env = some (answer, env) ∧
        (dispatchCommit engines path runtime hook sink w).1 = answer.mutation ∧
        sink.Writes (dispatchCommit engines path runtime hook sink w).2.1 answer.sink.records := by
  unfold dispatchCommit
  cases hanswer : (hook.engine engines).commitAnswer hook sink w.env with
  | none => exact .inl ⟨rfl, rfl⟩
  | some given =>
    obtain ⟨answer, env⟩ := given
    exact .inr ⟨answer, env, rfl, rfl, Sink.write_writes _ _ _⟩

/-- **How a hook that is committed by itself is settled**: refused for its owner, or rolled up from
what its engine answered. -/
theorem commitOneHook_rollsUp (path : Path) (runtime : RuntimeId) (planId ownerId : Id)
    (continuation : Option ContinuationInfo) (hook : Hook) (out : HookResult) (ledger : Ledger)
    (w : World ε) :
    let r := commitOneHook engines path runtime planId ownerId continuation hook out ledger w
    let d := singleDispatched engines path runtime planId ownerId continuation hook ledger w
    r.1.result.outcome = .conflict ∧
      r.1.result.observedPrepareEffects = out.observedPrepareEffects ∧
        r.2.1 = ledger ∨
      ∃ mutation out', out.Annotates out' ∧ (mutation = .none → d.1 = .none) ∧
        (mutation = .complete → d.1 = .complete) ∧
        RolledUp engines hook out' d.2.1.ledger ledger.count mutation d.2.1 none false d.2.2 r.1
          r.2.1 := by
  rw [commitOneHook]
  dsimp only
  split
  · exact .inl ⟨rfl, rfl, rfl⟩
  · rw [singleDispatched, openSink]
    generalize dispatchCommit engines path runtime hook _ w = dispatched
    obtain ⟨m₁, sink₁, w₁⟩ := dispatched
    dsimp only
    have hnone := recoverMutation_none engines hook (w.owners.lookup hook.targetKey) m₁ sink₁ out
    have hcomplete := recoverMutation_spec engines hook
      (w.owners.lookup hook.targetKey) m₁ sink₁ out
    have hout := recoverMutation_annotates engines hook
      (w.owners.lookup hook.targetKey) m₁ sink₁ out
    generalize recoverMutation engines hook (w.owners.lookup hook.targetKey)
      m₁ sink₁ out = recovered
      at hnone hcomplete hout ⊢
    obtain ⟨m₂, out₂⟩ := recovered
    dsimp only at hnone hcomplete hout ⊢
    exact .inr ⟨m₂, out₂, hout, hnone, fun h ↦ (hcomplete h).1,
      finishCommitAttempt_rolledUp engines path runtime hook out₂ sink₁.ledger ledger.count m₂ sink₁
        none true false w₁⟩

/-- What a hook that is committed by itself adds to the ledger is its own. -/
theorem commitOneHook_ledger (path : Path) (runtime : RuntimeId) (planId ownerId : Id)
    (continuation : Option ContinuationInfo) (hook : Hook) (out : HookResult) (ledger : Ledger)
    (w : World ε) :
    let r := commitOneHook engines path runtime planId ownerId continuation hook out ledger w
    ledger.Grows r.2.1 ∧ ∀ j a, ledger.count ≤ j → r.2.1.items[j]? = some a →
      a.requestId = hook.hookId := by
  dsimp only
  rcases commitOneHook_rollsUp engines path runtime planId ownerId continuation hook out ledger w
    with ⟨-, -, heq⟩ | ⟨mutation, out', -, -, -, hrolled⟩
  · rw [heq]
    refine ⟨.refl ledger, fun j a hj ha ↦ ?_⟩
    exact absurd (List.getElem?_eq_some_iff.mp ha).1 (not_lt.mpr hj)
  · have hwrites : ∃ records, (openSink planId ownerId continuation hook ledger w).Writes
        (singleDispatched engines path runtime planId ownerId continuation hook ledger w).2.1
        records := by
      rcases dispatchCommit_answer engines path runtime hook
        (openSink planId ownerId continuation hook ledger w) w with
        ⟨-, heq⟩ | ⟨answer, env, -, -, hwrites⟩
      · rw [singleDispatched, heq]
        exact ⟨[], .refl _⟩
      · exact ⟨_, hwrites⟩
    obtain ⟨records, hwrites⟩ := hwrites
    refine ⟨hrolled.grows le_rfl hwrites.grows, fun j a hj ha ↦ ?_⟩
    obtain ⟨b, hb, hba, -⟩ := Pointwise.getElem?_right hrolled.marks ha
    rw [hba.requestId]
    -- the artifacts in front are the old ones, so this one was written by the engine
    obtain ⟨more, hitems, hstamped⟩ := hwrites.added
    rw [hitems] at hb
    exact hstamped b (List.mem_of_getElem? ((List.getElem?_append_right hj).symm.trans hb))

/-! ## One pass -/

/-- What a pass may do to the ledger and to the counter of failures. -/
structure CommitState.Adds (st st' : CommitState ε) : Prop where
  failed : st.failed ≤ st'.failed
  grows : st.ledger.Grows st'.ledger
  /-- What is new was recorded for a hook that this pass settled. -/
  added : ∀ j a, st.ledger.count ≤ j → st'.ledger.items[j]? = some a →
    ∃ hook ∈ st.hooks, hook.result.outcome = .prepared ∧ a.requestId = hook.hookId ∧
      ∃ hook' ∈ st'.hooks, hook'.hookId = hook.hookId ∧ hook'.result.outcome.isVerdict = true

theorem CommitState.Adds.refl (st : CommitState ε) : st.Adds st :=
  ⟨le_rfl, .refl _, fun _ _ hj ha ↦
    absurd (List.getElem?_eq_some_iff.mp ha).1 (not_lt.mpr hj)⟩

/-- A pass that leaves the ledger alone. -/
theorem CommitState.Adds.of_ledger {st st' : CommitState ε} (hfailed : st.failed ≤ st'.failed)
    (hledger : st'.ledger = st.ledger) : st.Adds st' := by
  refine ⟨hfailed, by rw [hledger]; exact .refl _, fun j a hj ha ↦ ?_⟩
  rw [hledger] at ha
  exact absurd (List.getElem?_eq_some_iff.mp ha).1 (not_lt.mpr hj)

/-- A wave. -/
theorem commitGroup_adds {plan : CommitPlan} {count : Nat} {st : CommitState ε}
    (hvalid : ∀ i ∈ plan.order, i < st.hooks.length) (hnodup : plan.order.Nodup)
    (hprepared : ∀ hook ∈ waveHooks plan count st, hook.result.outcome = .prepared) :
    st.Adds (commitGroup engines plan count st).state := by
  cases hflow : commitGroup engines plan count st with
  | stop st' =>
    rw [commitGroup] at hflow
    generalize st.world.env.allocAll 4 = allocated at hflow
    obtain ⟨ok, env⟩ := allocated
    cases ok with
    | false =>
      cases hflow
      exact .of_ledger le_rfl rfl
    | true =>
      dsimp only at hflow
      generalize allocMembers _ (st.world.setEnv env) = allocated at hflow
      obtain ⟨ok, w⟩ := allocated
      cases ok with
      | false =>
        cases hflow
        exact .of_ledger le_rfl rfl
      | true => cases hflow
  | next st' =>
    have heq := commitGroup_next engines hflow
    subst heq
    obtain ⟨hgrows, hadded⟩ := waveSettled_ledger engines plan count st
    refine ⟨Nat.le_add_right _ _, hgrows, fun j a hj ha ↦ ?_⟩
    obtain ⟨m, hm, -, hrequest⟩ := hadded j a hj ha
    obtain ⟨i, hi⟩ := List.getElem?_of_mem hm
    obtain ⟨hook, m₀, l, w, hook', h⟩ := settledMember_of_stored engines hi
    have hmem := List.mem_of_getElem? h.hookAt
    rw [h.storedHook] at hrequest
    refine ⟨hook, hooksAt_mem hmem, hprepared hook hmem, hrequest, hook', ?_, ?_,
      h.rollsUp.verdict⟩
    · exact waveSettled_mem engines hvalid hnodup (List.mem_of_getElem? h.settledAt)
    · rw [h.rollsUp.same.hookId, h.storedHook]

theorem commitSingle_adds {plan : CommitPlan} {index : Nat} {hook : Hook} {st : CommitState ε}
    (hvisits : Visits plan st index hook) : st.Adds (commitSingle engines plan index hook st) := by
  rw [commitSingle]
  split
  · exact .of_ledger (Nat.le_add_right _ _) rfl
  · dsimp only
    split
    · exact .of_ledger (Nat.le_add_right _ _) rfl
    · obtain ⟨hgrows, hadded⟩ := commitOneHook_ledger engines .single plan.runtime plan.planId
        plan.ownerId hook.preparedContinuation hook hook.result st.ledger st.world
      have hspec := commitOneHook_spec engines .single plan.runtime plan.planId plan.ownerId
        hook.preparedContinuation hook hook.result st.ledger st.world
      refine ⟨Nat.le_add_right _ _, hgrows, fun j a hj ha ↦ ?_⟩
      refine ⟨hook, List.mem_of_getElem? hvisits.get, hvisits.prepared, hadded j a hj ha, _,
        List.mem_set (List.getElem?_eq_some_iff.mp hvisits.get).1 _, hspec.same.hookId,
        hspec.verdict⟩

/-- **One pass only adds to the ledger.** -/
theorem commitIter_adds (plan : CommitPlan) (st : CommitState ε)
    (hvalid : ∀ i ∈ plan.order, i < st.hooks.length) (hnodup : plan.order.Nodup) :
    st.Adds (commitIter engines plan st).state := by
  rw [commitIter]
  split
  · exact .of_ledger le_rfl rfl
  · rename_i index horder
    split
    · exact .of_ledger le_rfl rfl
    · rename_i hook hget
      split
      · exact .of_ledger le_rfl rfl
      · rename_i hprepared
        rw [not_not] at hprepared
        dsimp only
        split
        · rename_i hmore
          refine commitGroup_adds engines hvalid hnodup fun hook hhook ↦ ?_
          have hdrop : ∀ i ∈ plan.order.drop st.position, i < st.hooks.length :=
            fun i hi ↦ hvalid i (List.mem_of_mem_drop hi)
          obtain ⟨first, rest, htake, -, -, hmembers, -⟩ := commitGroupCount_spec hmore
          rw [waveHooks, hooksAt_take hdrop, htake] at hhook
          exact (hmembers hook hhook).1
        · split
          · exact .of_ledger (Nat.le_add_right _ _) rfl
          · have h := @commitSingle_adds _ engines plan _ _ _ ⟨horder, hget, hprepared⟩
            exact ⟨h.failed, h.grows, h.added⟩

/-! ## The loop -/

section Loop

variable {engines} {plan : CommitPlan} {hooks : List Hook} {w : World ε}

/-- The hooks stay the plan's hooks, and what is in the ledger belongs to hooks that are settled. -/
structure CommitState.Keeps (hooks : List Hook) (st : CommitState ε) : Prop where
  commits : List.Forall₂ Hook.Commits hooks st.hooks
  settled : ∀ a ∈ st.ledger.items, ∃ hook ∈ st.hooks, hook.hookId = a.requestId ∧
    hook.result.outcome ≠ .prepared

theorem Outcome.ne_prepared_of_isFinal {o : Outcome} (h : o.isFinal = true) : o ≠ .prepared := by
  rintro rfl
  cases h

theorem Hook.Commits.ne_prepared {h h' : Hook} (hc : h.Commits h')
    (hne : h.result.outcome ≠ .prepared) : h'.result.outcome ≠ .prepared := by
  rcases hc.outcome with rfl | ⟨hprepared, -⟩
  · exact hne
  · exact absurd hprepared hne

theorem CommitState.Keeps.pass {st : CommitState ε} (h : st.Keeps hooks)
    (hvalid : ∀ i ∈ plan.order, i < hooks.length) (hnodup : plan.order.Nodup) :
    CommitState.Keeps hooks (commitIter engines plan st).state := by
  have hvalid' : ∀ i ∈ plan.order, i < st.hooks.length :=
    fun i hi ↦ (hvalid i hi).trans_eq h.commits.length_eq
  have hcommits := (commitIter_pass engines plan st hvalid').commits hvalid' hnodup
  have hadds := commitIter_adds engines plan st hvalid' hnodup
  refine ⟨Pointwise.trans (fun _ _ _ ↦ .trans) h.commits hcommits, fun a ha ↦ ?_⟩
  obtain ⟨j, hj⟩ := List.getElem?_of_mem ha
  by_cases hold : j < st.ledger.count
  · -- an old artifact: its hook stays settled
    have hget := List.prefix_iff_getElem?.mp hadds.grows j hold
    rw [hj, Option.some.injEq] at hget
    obtain ⟨hook, hhook, hid, hne⟩ := h.settled a (hget ▸ List.getElem_mem hold)
    obtain ⟨hook', hhook', hc⟩ := Pointwise.mem_left hcommits hhook
    exact ⟨hook', hhook', hc.hookId.trans hid, hc.ne_prepared hne⟩
  · obtain ⟨hook, -, -, hid, hook', hhook', hid', hverdict⟩ := hadds.added j a (not_lt.mp hold) hj
    exact ⟨hook', hhook', hid'.trans hid.symm,
      Outcome.ne_prepared_of_isFinal (Outcome.isFinal_of_isVerdict hverdict)⟩

/-- **What is left of a pass when the loop is over.**  Its failures are counted, its artifacts are
in the ledger, and nothing in the ledger names a hook it settled but what it recorded. -/
structure CommitState.Left (st st' final : CommitState ε) (hook : Hook) : Prop where
  failed : st'.failed ≤ final.failed
  grows : st'.ledger.Grows final.ledger
  own : ∀ a ∈ final.ledger.items, a.requestId = hook.hookId →
    ∃ j, st.ledger.count ≤ j ∧ st'.ledger.items[j]? = some a

theorem commitLoop_left (hvalid : ∀ i ∈ plan.order, i < hooks.length) (hnodup : plan.order.Nodup)
    (hids : (hooks.map Hook.hookId).Nodup) {st : CommitState ε}
    (hmem : st ∈ commitVisited engines plan hooks w) {hook : Hook} (hhook : hook ∈ st.hooks)
    (hprepared : hook.result.outcome = .prepared)
    (hsettled : ∃ hook' ∈ (commitIter engines plan st).state.hooks, hook'.hookId = hook.hookId ∧
      hook'.result.outcome ≠ .prepared) :
    st.Left (commitIter engines plan st).state (commitLoop engines plan hooks w).state hook := by
  have hkeeps : ∀ st' ∈ commitVisited engines plan hooks w, CommitState.Keeps hooks st' →
      CommitState.Keeps hooks (commitIter engines plan st').state :=
    fun st' _ h ↦ h.pass hvalid hnodup
  have hstart : CommitState.Keeps hooks (.start hooks w) :=
    ⟨Pointwise.refl .refl hooks, fun a ha ↦ absurd ha List.not_mem_nil⟩
  obtain ⟨-, hkept, hlater⟩ := visited_invariant (CommitState.Keeps hooks) _ hmem hkeeps hstart
  have hone : ∀ {st' : CommitState ε}, CommitState.Keeps hooks st' → ∀ h₁ ∈ st'.hooks,
      ∀ h₂ ∈ st'.hooks, h₁.hookId = h₂.hookId → h₁ = h₂ := by
    intro st' hst'
    have hnodup' : (st'.hooks.map Hook.hookId).Nodup := by
      rw [Pointwise.map_eq hst'.commits Hook.hookId fun _ _ h ↦ h.hookId]
      exact hids
    exact List.inj_on_of_nodup_map hnodup'
  -- the artifacts of the pass itself, and then those of the passes behind it
  have hboth := hlater (fun final ↦ st.Left (commitIter engines plan st).state final hook ∧
      ∃ hook' ∈ final.hooks, hook'.hookId = hook.hookId ∧ hook'.result.outcome ≠ .prepared) ?_ ?_
  · exact hboth.1
  · refine ⟨⟨le_rfl, .refl _, fun a ha hid ↦ ?_⟩, hsettled⟩
    obtain ⟨j, hj⟩ := List.getElem?_of_mem ha
    by_cases hold : j < st.ledger.count
    · have hvalid' : ∀ i ∈ plan.order, i < st.hooks.length :=
        fun i hi ↦ (hvalid i hi).trans_eq hkept.commits.length_eq
      have hget := List.prefix_iff_getElem?.mp
        (commitIter_adds engines plan st hvalid' hnodup).grows j hold
      rw [hj, Option.some.injEq] at hget
      obtain ⟨other, hother, hid', hne⟩ := hkept.settled a (hget ▸ List.getElem_mem hold)
      obtain rfl := hone hkept other hother hook hhook (hid'.trans hid)
      exact absurd hprepared hne
    · exact ⟨j, not_lt.mp hold, hj⟩
  · rintro st' hst' hkept' ⟨hleft, hook', hhook', hid', hne⟩
    have hvalid' : ∀ i ∈ plan.order, i < st'.hooks.length :=
      fun i hi ↦ (hvalid i hi).trans_eq hkept'.commits.length_eq
    have hadds := commitIter_adds engines plan st' hvalid' hnodup
    have hcommits := (commitIter_pass engines plan st' hvalid').commits hvalid' hnodup
    refine ⟨⟨hleft.failed.trans hadds.failed, hleft.grows.trans hadds.grows, fun a ha hid ↦ ?_⟩, ?_⟩
    · obtain ⟨j, hj⟩ := List.getElem?_of_mem ha
      by_cases hold : j < st'.ledger.count
      · have hget := List.prefix_iff_getElem?.mp hadds.grows j hold
        rw [hj, Option.some.injEq] at hget
        exact hleft.own a (hget ▸ List.getElem_mem hold) hid
      · obtain ⟨other, hother, hprepared', hid'', -⟩ := hadds.added j a (not_lt.mp hold) hj
        obtain rfl := hone hkept' other hother hook' hhook' ((hid''.symm.trans hid).trans hid'.symm)
        exact absurd hprepared' hne
    · obtain ⟨hook'', hhook'', hc⟩ := Pointwise.mem_left hcommits hhook'
      exact ⟨hook'', hhook'', hc.hookId.trans hid', hc.ne_prepared hne⟩

end Loop

end HookKit
