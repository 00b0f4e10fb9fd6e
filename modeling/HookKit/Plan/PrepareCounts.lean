import HookKit.Plan.Staleness

/-!
# The counters of a preparation

`hk_plan_prepare` computes the state of the plan from what it has counted, and it starts to count
anew in every call.

* `prepareFailures` — how many failures of preparation a history holds.
* `PrepareState.Counted` — the counters say what has happened since the call began.
* `PrepareState.Outdated` — the hook that a pass comes to is settled as stale; it is counted as
  failed, but not as attempted.
* `prepareIter_counted` — a pass without such a hook keeps the counters right.
* `PreparesHonestly` — the state that a call leaves tells what has happened to the hooks, in this
  call and in every earlier one.
* `preparePlan_honest` — so it does where no earlier call has got anywhere.
-/

set_option autoImplicit false

namespace HookKit

open Loop Trace

variable {ε : Type}

/-- Whether the outcome is one of a failed preparation. -/
def Outcome.isPrepareFailure (o : Outcome) : Bool := o = .failedSafe || o = .stalePlan

/-- A preparation has failed. -/
def Event.prepareFailed : Event → Bool
  | .prepareSettled _ outcome => outcome.isPrepareFailure
  | _ => false

/-- The failures of preparation in a history. -/
def prepareFailures (history : List Event) : Nat := history.countP Event.prepareFailed

/-- How many hooks are prepared. -/
def preparedCount (hooks : List Hook) : Nat := hooks.countP fun hook ↦
    hook.result.outcome = .prepared

/-! ## What is not counted -/

theorem prepareFailures_adds {Q : Event → Prop} {old new : List Event} (h : Adds Q old new)
    (hQ : ∀ e, Q e → e.prepareFailed = false) : prepareFailures new = prepareFailures old := by
  obtain ⟨added, rfl, hadded⟩ := h
  have hnone : added.countP Event.prepareFailed = 0 := by
    rw [List.countP_eq_zero]
    intro e he
    rw [hQ e (hadded e he)]
    exact Bool.false_ne_true
  rw [prepareFailures, List.countP_append, hnone, Nat.zero_add, prepareFailures]

theorem Event.ofState.not_failed {e : Event} (h : e.ofState) : e.prepareFailed = false := by
  cases e <;> first | rfl | exact h.elim

/-- Letting go of what was prepared, and looking at it. -/
theorem World.Quiet.prepareFailures_eq {w w' : World ε} (h : w.Quiet Event.ofState w') :
    prepareFailures w'.history = prepareFailures w.history :=
  prepareFailures_adds h.history fun _ ↦ Event.ofState.not_failed

theorem World.Quiet.prepareFailures_eq_of_false {w w' : World ε} (h : w.Quiet (fun _ ↦ False) w') :
    prepareFailures w'.history = prepareFailures w.history :=
  prepareFailures_adds h.history fun _ ↦ False.elim

theorem prepareFailures_log (w : World ε) (e : Event) :
    prepareFailures (w.log e).history = prepareFailures w.history +
    if e.prepareFailed then 1 else 0 :=
  List.countP_cons

theorem preparedCount_set {hooks : List Hook} {i : Nat} {hook : Hook} (h : hooks[i]? = some hook)
    (hne : hook.result.outcome ≠ .prepared) (hook' : Hook) :
    preparedCount (hooks.set i hook') =
      preparedCount hooks + if hook'.result.outcome = .prepared then 1 else 0 := by
  obtain ⟨hlt, rfl⟩ := List.getElem?_eq_some_iff.mp h
  rw [preparedCount, List.countP_set hlt, decide_eq_false hne, preparedCount]
  simp

theorem preparedOutcome_isPrepareFailure (spec : HookSpec) (result : PrepareResult) :
    (preparedOutcome spec result).isPrepareFailure = true ↔ result = .failed := by
  cases result with
  | ok => simp [preparedOutcome, Outcome.isPrepareFailure]
  | failed => simp [preparedOutcome, Outcome.isPrepareFailure]
  | notApplicable =>
    rw [preparedOutcome]
    split <;> simp [Outcome.isPrepareFailure]

/-! ## The counters -/

/-- The counters of a call that began in `w₀`, where `slack` hooks have been counted as attempted
that the call has not come to yet. -/
structure PrepareState.Counted (w₀ : World ε) (slack : Nat) (st : PrepareState ε) : Prop where
  prepared : st.prepared = (preparedCount st.hooks : Int)
  failed : prepareFailures st.world.history = prepareFailures w₀.history + st.failed
  attempted : (st.failed : Int) + st.prepared + slack ≤ st.attempted

variable (engines : EngineRef → Engine ε) {w₀ : World ε} {slack : Nat} {st : PrepareState ε}

theorem PrepareState.Counted.mono (h : st.Counted w₀ slack) {less : Nat} (hless : less ≤ slack) :
    st.Counted w₀ less :=
  ⟨h.prepared, h.failed, by have := h.attempted; omega⟩

/-- Not more has failed than has been attempted. -/
theorem PrepareState.Counted.failed_le (h : st.Counted w₀ slack) : st.failed ≤ st.attempted := by
  have hprepared := h.prepared
  have hattempted := h.attempted
  omega

theorem PrepareState.Counted.setWorld (h : st.Counted w₀ slack) {w : World ε}
    (hw : prepareFailures w.history = prepareFailures st.world.history) :
    PrepareState.Counted w₀ slack { st with world := w } :=
  ⟨h.prepared, hw.trans h.failed, h.attempted⟩

/-- The members that are taken back were counted as prepared, and are counted as failed. -/
theorem releaseDomainMembers_counts (domain : Id) (hooks : List Hook) (w : World ε) :
    preparedCount (releaseDomainMembers engines domain hooks w).1 +
        (releaseDomainMembers engines domain hooks w).2.1 = preparedCount hooks ∧
      prepareFailures (releaseDomainMembers engines domain hooks w).2.2.history =
        prepareFailures w.history + (releaseDomainMembers engines domain hooks w).2.1 := by
  induction hooks generalizing w with
  | nil => exact ⟨rfl, rfl⟩
  | cons hook rest ih =>
    rw [releaseDomainMembers]
    split
    · rename_i hmember
      have hquiet := (releasePrepared_quiet engines hook w).prepareFailures_eq
      generalize releasePrepared engines hook w = released at hquiet ⊢
      obtain ⟨hook₁, w₁⟩ := released
      have hlog : prepareFailures (w₁.log (.prepareSettled hook₁.hookId .failedSafe)).history =
          prepareFailures w.history + 1 := by
        rw [prepareFailures_log, hquiet]
        rfl
      obtain ⟨hprepared, hfailed⟩ := ih (w₁.log (.prepareSettled hook₁.hookId .failedSafe))
      change preparedCount (_ :: (releaseDomainMembers engines domain rest
            (w₁.log (.prepareSettled hook₁.hookId .failedSafe))).1) +
          ((releaseDomainMembers engines domain rest
            (w₁.log (.prepareSettled hook₁.hookId .failedSafe))).2.1 + 1) = _ ∧
        prepareFailures (releaseDomainMembers engines domain rest
            (w₁.log (.prepareSettled hook₁.hookId .failedSafe))).2.2.history =
              prepareFailures w.history +
          ((releaseDomainMembers engines domain rest
            (w₁.log (.prepareSettled hook₁.hookId .failedSafe))).2.1 + 1)
      rw [hfailed, hlog]
      refine ⟨?_, by omega⟩
      simp only [preparedCount, List.countP_cons, hmember.2, HookResult.withError, reduceCtorEq,
        decide_false, Bool.false_eq_true, if_false, decide_true, if_true] at hprepared ⊢
      omega
    · obtain ⟨hprepared, hfailed⟩ := ih w
      generalize releaseDomainMembers engines domain rest w = r at hprepared hfailed ⊢
      obtain ⟨rest', released, w'⟩ := r
      refine ⟨?_, hfailed⟩
      simp only [preparedCount, List.countP_cons] at hprepared ⊢
      omega

theorem failDomain_counted (domains : List Domain) (gateOk : Id → Bool) (hook : Hook)
    (h : st.Counted w₀ slack) : (failDomain engines domains gateOk hook st).Counted w₀ slack := by
  rw [failDomain]
  split
  · exact h
  · split
    · rename_i domain _ _
      obtain ⟨hprepared, hfailed⟩ :=
        releaseDomainMembers_counts engines domain.domainId st.hooks st.world
      generalize releaseDomainMembers engines domain.domainId st.hooks st.world =
        r at hprepared hfailed ⊢
      obtain ⟨hooks, released, w⟩ := r
      have hattempted := h.attempted
      have hstart := h.prepared
      dsimp only at hprepared hfailed ⊢
      refine ⟨?_, ?_, ?_⟩
      · dsimp only
        omega
      · dsimp only
        rw [hfailed, h.failed]
        omega
      · dsimp only
        push_cast
        omega
    · exact h

/-- An attempt at a hook that is not prepared uses up one of those that have been counted. -/
theorem recordPrepareAttempt_counted (domains : List Domain) (gateOk : Id → Bool) {index : Nat}
    (result : PrepareResult) (hook : Hook) (diag : PrepareDiag) (out : HookResult)
    (h : st.Counted w₀ (slack + 1)) {hook₀ : Hook} (hget : st.hooks[index]? = some hook₀)
    (hne : hook₀.result.outcome ≠ .prepared) :
    (recordPrepareAttempt engines domains gateOk index result hook diag out st).Counted
    w₀ slack := by
  rw [recordPrepareAttempt]
  have hvalidated :=
    (validatePrepareEffects_spec engines result hook diag st.world).2.prepareFailures_eq
  generalize validatePrepareEffects engines result hook diag st.world = validated at hvalidated ⊢
  obtain ⟨result', hook₁, diag', w₁⟩ := validated
  have hreleased : prepareFailures
      (if result' ≠ .ok then releasePrepared engines hook₁ w₁ else (hook₁, w₁)).2.history =
      prepareFailures w₁.history := by
    split
    · exact (releasePrepared_quiet engines hook₁ w₁).prepareFailures_eq
    · rfl
  dsimp only at hvalidated ⊢
  generalize (if result' ≠ .ok then releasePrepared engines hook₁ w₁ else (hook₁, w₁)) = released
    at hreleased ⊢
  obtain ⟨hook₂, w₂⟩ := released
  dsimp only at hreleased ⊢
  have houtcome := preparedResult_outcome engines hook₂ out result' diag'
  have hcount := preparedCount_set hget hne
    { hook₂ with result := preparedResult engines hook₂ out result' diag' }
  have hlog := prepareFailures_log w₂ (.prepareSettled hook₂.hookId
    (preparedResult engines hook₂ out result' diag').outcome)
  rw [Event.prepareFailed, houtcome] at hlog
  dsimp only at hcount
  rw [houtcome] at hcount
  simp only [preparedOutcome_eq_prepared] at hcount
  simp only [preparedOutcome_isPrepareFailure] at hlog
  rw [hreleased, hvalidated] at hlog
  obtain ⟨hprepared, hfailed, hattempted⟩ := h
  split
  · -- the preparation has failed
    rename_i hresult
    refine failDomain_counted engines domains gateOk _ ?_
    subst hresult
    rw [if_neg (by simp)] at hcount
    rw [if_pos rfl] at hlog
    refine ⟨?_, ?_, ?_⟩
    · dsimp only
      rw [if_neg (by simp), hcount, hprepared, Nat.add_zero]
    · dsimp only
      rw [houtcome, hlog, hfailed, Nat.add_assoc]
    · dsimp only
      rw [if_neg (by simp)]
      push_cast at hattempted ⊢
      omega
  · rename_i hresult
    rw [if_neg hresult] at hlog
    refine ⟨?_, ?_, ?_⟩
    · dsimp only
      rw [hcount, hprepared]
      split <;> simp
    · dsimp only
      rw [houtcome, hlog, hfailed, Nat.add_zero]
    · dsimp only
      split <;> push_cast at hattempted ⊢ <;> omega

/-- Recording the members of a wave, none of which is prepared. -/
theorem recordPrepareGroup_counted (answer : PrepareGroupAnswer) (index : Nat)
    (outs : List HookResult)
    (offset : Nat) {st : PrepareState ε} (h : st.Counted w₀ outs.length)
    (hmembers : ∀ i < outs.length, ∃ hook, st.hooks[index + offset + i]? = some hook ∧
      hook.result.outcome = .analyzed) :
    (recordPrepareGroup engines answer index outs offset st).Counted w₀ 0 := by
  induction outs generalizing offset st with
  | nil => exact h
  | cons out outs ih =>
    obtain ⟨hook, hget, hanalyzed⟩ := hmembers 0 (Nat.succ_pos _)
    rw [Nat.add_zero] at hget
    rw [recordPrepareGroup, hget]
    dsimp only
    generalize (if answer.accepted = true then answer.writes offset
      else { answer.writes offset with result := .failed, prepared := 0 }) = written
    have hinspected : prepareFailures
        (if written.result = .ok then
          inspectPreparedContinuation engines { hook with preparedState := written.prepared }
            written.diag (st.world.log (.obtained hook.hookId hook.matchedEngine
              (answer.writes offset).prepared))
        else (written.result, { hook with preparedState := written.prepared }, written.diag,
          st.world.log (.obtained hook.hookId hook.matchedEngine
            (answer.writes offset).prepared))).2.2.2.history =
              prepareFailures st.world.history := by
      have hlog := World.quiet_log (Q := Event.ofState) st.world
        (e := .obtained hook.hookId hook.matchedEngine (answer.writes offset).prepared) trivial
      split
      · exact (hlog.trans (inspectPreparedContinuation_spec engines _ _ _).2).prepareFailures_eq
      · exact hlog.prepareFailures_eq
    generalize (if written.result = .ok then
        inspectPreparedContinuation engines { hook with preparedState := written.prepared }
          written.diag (st.world.log (.obtained hook.hookId hook.matchedEngine
            (answer.writes offset).prepared))
      else (written.result, { hook with preparedState := written.prepared }, written.diag,
        st.world.log (.obtained hook.hookId hook.matchedEngine
          (answer.writes offset).prepared))) = inspected at hinspected ⊢
    obtain ⟨result, hook', diag, w⟩ := inspected
    dsimp only at hinspected ⊢
    refine ih (offset + 1)
      (recordPrepareAttempt_counted engines [] (fun _ ↦ true) result hook' diag out
      (h.setWorld hinspected) hget (by rw [hanalyzed]; simp)) fun i hi ↦ ?_
    -- the attempt has set the member it was about only
    obtain ⟨later, hlater, hanalyzed'⟩ := hmembers (i + 1) (Nat.succ_lt_succ hi)
    refine ⟨later, ?_, hanalyzed'⟩
    obtain ⟨hook₂, hhooks, -⟩ := recordPrepareAttempt_hooks engines (fun _ ↦ true)
      (index + offset) result
      hook' diag out { st with world := w }
    rw [hhooks, List.getElem?_set_ne (by omega), ← hlater]
    congr 1
    omega

theorem logPrepareCalls_counted (runtime : RuntimeId) (hooks : List Hook) (w : World ε) :
    prepareFailures (logPrepareCalls runtime hooks w).history = prepareFailures w.history := by
  induction hooks generalizing w with
  | nil => rfl
  | cons hook rest ih =>
    rw [logPrepareCalls, ih, prepareFailures_log]
    rfl

/-- A wave is not longer than the plan. -/
theorem prepareGroupCount_length {generation : Nat} {hooks : List Hook} {start : Nat}
    (h : 1 < prepareGroupCount engines generation hooks start) :
    ((hooks.drop start).take (prepareGroupCount engines generation hooks start)).length =
      prepareGroupCount engines generation hooks start := by
  rw [List.length_take, min_eq_left]
  rw [prepareGroupCount] at h ⊢
  split at h
  · omega
  · rename_i first rest hdrop
    rw [hdrop]
    dsimp only at h ⊢
    have hwave := (List.takeWhile_prefix (joinsPrepareWave generation first) (l := rest)).length_le
    split
    · omega
    · split
      · rw [List.length_cons]
        omega
      · omega

/-- A wave. -/
theorem prepareGroup_counted (runtime : RuntimeId) {count : Nat} (h : st.Counted w₀ 0)
    (hlength : ((st.hooks.drop st.index).take count).length = count)
    (hidle : ∀ hook ∈ (st.hooks.drop st.index).take count, hook.preparedState = 0)
    (hanalyzed : ∀ hook ∈ (st.hooks.drop st.index).take count, hook.result.outcome = .analyzed) :
    (prepareGroup engines runtime count st).state.Counted w₀ 0 := by
  rw [prepareGroup_idle engines runtime count hidle]
  have halloc : st.world.Quiet (fun _ ↦ False) st.world.alloc.2 := World.quiet_alloc st.world
  generalize st.world.alloc = allocated at halloc ⊢
  obtain ⟨ok, w⟩ := allocated
  cases ok with
  | false => exact h.setWorld halloc.prepareFailures_eq_of_false
  | true =>
    dsimp only [Flow.state_next] at halloc ⊢
    have hcall := (callPrepareGroup_quiet (Q := fun _ ↦ False) engines
      ((st.hooks.drop st.index).take count)
      (logPrepareCalls runtime ((st.hooks.drop st.index).take count) w)).prepareFailures_eq_of_false
    rw [logPrepareCalls_counted, halloc.prepareFailures_eq_of_false] at hcall
    generalize callPrepareGroup engines ((st.hooks.drop st.index).take count)
      (logPrepareCalls runtime ((st.hooks.drop st.index).take count) w) = called at hcall ⊢
    obtain ⟨answer, w₁⟩ := called
    dsimp only at hcall ⊢
    have hstart :
        PrepareState.Counted w₀ (((st.hooks.drop st.index).take count).map Hook.result).length
        { st with world := w₁, attempted := st.attempted + count } := by
      rw [List.length_map, hlength]
      refine ⟨h.prepared, hcall.trans h.failed, ?_⟩
      have := h.attempted
      push_cast
      omega
    have hrecorded := recordPrepareGroup_counted engines answer st.index _ 0 hstart fun i hi ↦ ?_
    · exact ⟨hrecorded.prepared, hrecorded.failed, hrecorded.attempted⟩
    · rw [List.length_map] at hi
      refine ⟨((st.hooks.drop st.index).take count)[i], ?_, hanalyzed _ (List.getElem_mem hi)⟩
      rw [List.length_take, List.length_drop] at hi
      simp only [List.getElem_take, List.getElem_drop, Nat.add_zero]
      exact List.getElem?_eq_getElem _

/-- A hook that is prepared by itself. -/
theorem prepareSingle_counted (runtime : RuntimeId) (domains : List Domain) (gateOk : Id → Bool)
    {hook : Hook} (h : st.Counted w₀ 1) (hget : st.hooks[st.index]? = some hook)
    (hanalyzed : hook.result.outcome = .analyzed) :
    (prepareSingle engines runtime domains gateOk hook st).Counted w₀ 0 := by
  have hreleased := (releasePrepared_quiet engines hook st.world).prepareFailures_eq
  rw [prepareSingle]
  generalize releasePrepared engines hook st.world = released at hreleased ⊢
  obtain ⟨hook₁, w₁⟩ := released
  dsimp only at hreleased ⊢
  have hdispatched :
      prepareFailures (dispatchPrepare engines .single runtime hook₁ w₁).2.2.2.history =
      prepareFailures w₁.history := by
    rcases (dispatchPrepare_spec engines .single runtime hook₁ w₁).2 with heq | hquiet
    · rw [heq]
    · rw [hquiet.prepareFailures_eq, prepareFailures_log]
      rfl
  generalize dispatchPrepare engines .single runtime hook₁ w₁ = dispatched at hdispatched ⊢
  obtain ⟨result, hook₂, diag, w₂⟩ := dispatched
  exact recordPrepareAttempt_counted engines domains gateOk result hook₂ diag hook.result
    (h.setWorld (hdispatched.trans hreleased)) hget (by rw [hanalyzed]; simp)

/-! ## A pass -/

/-- The hook that the pass comes to is settled as stale. -/
def PrepareState.Outdated (engines : EngineRef → Engine ε) (runtime : RuntimeId)
    (st : PrepareState ε) :
    Prop :=
  ∃ hook ∈ st.reached,
    prepareGroupCount engines (st.world.env.generation runtime) st.hooks st.index ≤ 1 ∧
    hook.result.imageGeneration ≠ st.world.env.generation runtime

instance PrepareState.Outdated.decidable (runtime : RuntimeId) (st : PrepareState ε) :
    Decidable (st.Outdated engines runtime) :=
  inferInstanceAs (Decidable (∃ hook ∈ st.reached, _))

/-- **A pass keeps the counters right**, unless it settles a hook as stale. -/
theorem prepareIter_counted (runtime : RuntimeId) (domains : List Domain) (gateOk : Id → Bool)
    (hidle : ∀ hook ∈ st.hooks, hook.Idle) (hcurrent : ¬ st.Outdated engines runtime)
    (h : st.Counted w₀ 0) :
    (prepareIter engines runtime domains gateOk st).state.Counted w₀ 0 := by
  rw [prepareIter]
  split
  · exact ⟨h.prepared, h.failed, h.attempted⟩
  · rename_i hook hget
    split
    · exact ⟨h.prepared, h.failed, h.attempted⟩
    · rename_i hanalyzed
      rw [not_not] at hanalyzed
      have hone : PrepareState.Counted w₀ 1 { st with attempted := st.attempted + 1 } := by
        refine ⟨h.prepared, h.failed, ?_⟩
        have := h.attempted
        push_cast
        omega
      dsimp only
      split
      · rename_i hcount
        refine prepareGroup_counted engines runtime h ?_ (prepareGroupCount_idle hidle hcount)
          (prepareGroupCount_analyzed hcount)
        exact prepareGroupCount_length engines hcount
      · rename_i hcount
        split
        · rename_i hstale
          refine absurd
            ⟨hook, PrepareState.reached_eq_some.mpr ⟨hget, hanalyzed⟩, ?_, hstale⟩ hcurrent
          omega
        · split
          · -- refused by the gate of its domain
            have hset := preparedCount_set hget (by rw [hanalyzed]; simp)
              { hook with result := { hook.result with outcome := .failedSafe } }
            rw [if_neg (by simp)] at hset
            refine ⟨?_, ?_, ?_⟩
            · exact h.prepared.trans (congrArg Nat.cast hset.symm)
            · exact (prepareFailures_log _ _).trans (congrArg (· + 1) h.failed)
            · have := hone.attempted
              dsimp only [Flow.state_next, prepareBlocked] at this ⊢
              push_cast at this ⊢
              omega
          · have hsingle := prepareSingle_counted engines runtime domains gateOk hone hget hanalyzed
            exact ⟨hsingle.prepared, hsingle.failed, hsingle.attempted⟩

/-! ## A call -/

/-- A hook has failed its preparation, in some call. -/
def FailedPreparation (history : List Event) (id : Id) : Prop :=
  ∃ e ∈ history, e.about = some id ∧ e.prepareFailed = true

instance (history : List Event) (id : Id) : Decidable (FailedPreparation history id) :=
  inferInstanceAs (Decidable (∃ e ∈ history, _))

/-- **What `hk_plan_prepare` is honest about.**  Inside the call not more has failed than was
attempted; the plan is only PREPARED when no hook has ever failed its preparation, and FAILED
exactly when one has and none is prepared. -/
structure PreparesHonestly (engines : EngineRef → Engine ε) (plan : Plan) (w : World ε) : Prop where
  counts : ∀ st ∈ preparePasses engines plan w,
    (prepareIter engines plan.runtime plan.domains (domainGateOk plan) st).state.failed ≤
      (prepareIter engines plan.runtime plan.domains (domainGateOk plan) st).state.attempted
  prepared : (preparePlan engines plan w).1 = .ok →
    (preparePlan engines plan w).2.1.state = .prepared →
      ∀ hook ∈ (preparePlan engines plan w).2.1.hooks,
        ¬FailedPreparation (preparePlan engines plan w).2.2.history hook.hookId
  failed : (preparePlan engines plan w).1 = .ok →
    ((preparePlan engines plan w).2.1.state = .failed ↔
      (∃ hook ∈ (preparePlan engines plan w).2.1.hooks,
          FailedPreparation (preparePlan engines plan w).2.2.history hook.hookId) ∧
        ∀ hook ∈ (preparePlan engines plan w).2.1.hooks, hook.result.outcome ≠ .prepared)

/-- No call has prepared a hook of the plan or failed to. -/
def Plan.Unprepared (plan : Plan) (history : List Event) : Prop :=
  ∀ hook ∈ plan.hooks,
    hook.result.outcome ≠ .prepared ∧ ¬FailedPreparation history hook.hookId

instance (plan : Plan) (history : List Event) : Decidable (plan.Unprepared history) :=
  inferInstanceAs (Decidable (∀ hook ∈ plan.hooks, _))

section Call

variable {plan : Plan} {w w₁ : World ε}

/-- The counters are right in every pass, and when the loop is done. -/
theorem prepareLoop_counted (hidle : ∀ hook ∈ plan.hooks, hook.Idle)
    (hnone : ∀ hook ∈ plan.hooks, hook.result.outcome ≠ .prepared)
    (hcurrent : ∀ st ∈ visited (fun st : PrepareState ε ↦ decide (st.index < plan.hooks.length))
      (prepareIter engines plan.runtime plan.domains (domainGateOk plan)) plan.hooks.length
      (.start plan.hooks w₁), ¬st.Outdated engines plan.runtime) :
    (prepareLoop engines plan w₁).state.Counted w₁ 0 ∧
      ∀ st ∈ visited (fun st : PrepareState ε ↦ decide (st.index < plan.hooks.length))
        (prepareIter engines plan.runtime plan.domains (domainGateOk plan)) plan.hooks.length
        (.start plan.hooks w₁),
        (prepareIter engines plan.runtime plan.domains (domainGateOk plan) st).state.Counted w₁
        0 := by
  have hstart : (PrepareState.start plan.hooks w₁).Counted w₁ 0 ∧
      ∀ hook ∈ (PrepareState.start plan.hooks w₁).hooks, hook.Idle := by
    refine ⟨⟨?_, rfl, le_rfl⟩, hidle⟩
    have hzero : preparedCount plan.hooks = 0 :=
      List.countP_eq_zero.mpr fun hook hmem h ↦ hnone hook hmem (of_decide_eq_true h)
    rw [PrepareState.start, hzero]
    rfl
  have hpass : ∀ st ∈ visited (fun st : PrepareState ε ↦ decide (st.index < plan.hooks.length))
      (prepareIter engines plan.runtime plan.domains (domainGateOk plan)) plan.hooks.length
      (.start plan.hooks w₁), (st.Counted w₁ 0 ∧ ∀ hook ∈ st.hooks, hook.Idle) →
        (prepareIter engines plan.runtime plan.domains (domainGateOk plan) st).state.Counted w₁ 0 ∧
          ∀ hook ∈ (prepareIter engines plan.runtime plan.domains (domainGateOk plan) st).state.hooks,
            hook.Idle :=
    fun st hmem ⟨hcounted, hidle⟩ ↦
      ⟨prepareIter_counted engines plan.runtime plan.domains (domainGateOk plan) hidle
          (hcurrent st hmem) hcounted,
        prepareIter_idle engines plan.runtime plan.domains (domainGateOk plan) hidle⟩
  refine ⟨(run_invariant_visited
    (fun st : PrepareState ε ↦ st.Counted w₁ 0 ∧ ∀ hook ∈ st.hooks, hook.Idle) _ hpass hstart).1,
    fun st hmem ↦ ?_⟩
  obtain ⟨-, hst, -⟩ := visited_invariant
    (fun st : PrepareState ε ↦ st.Counted w₁ 0 ∧ ∀ hook ∈ st.hooks, hook.Idle) _ hmem hpass hstart
  exact (hpass st hmem hst).1

/-- A call that has gone through leaves the state that its counters tell. -/
theorem preparePlan_state (h : (preparePlan engines plan w).1 = .ok) :
    ∃ w₁, w.Quiet (fun _ ↦ False) w₁ ∧
      preparePasses engines plan w = visited (fun st ↦ decide (st.index < plan.hooks.length))
        (prepareIter engines plan.runtime plan.domains (domainGateOk plan)) plan.hooks.length
        (.start plan.hooks w₁) ∧
      (preparePlan engines plan w).2.1.hooks = (prepareLoop engines plan w₁).state.hooks ∧
      (preparePlan engines plan w).2.1.state = (prepareLoop engines plan w₁).state.planState ∧
      (prepareLoop engines plan w₁).state.world.Quiet (fun _ ↦ False)
        (preparePlan engines plan w).2.2 := by
  rw [preparePlan] at h ⊢
  rw [preparePasses]
  split at h
  · cases h
  · rename_i hstate
    rw [if_neg hstate, if_neg hstate]
    have halloc := allocPrepare_quiet (Q := fun _ ↦ False) plan w
    generalize allocPrepare plan w = allocated at halloc h ⊢
    obtain ⟨ok, w₁⟩ := allocated
    cases ok with
    | false => cases h
    | true =>
      refine ⟨w₁, halloc, rfl, ?_⟩
      dsimp only at h ⊢
      cases hloop : prepareLoop engines plan w₁ with
      | stop st =>
        rw [hloop] at h
        cases h
      | next st =>
        rw [hloop] at h
        dsimp only [Flow.state_next] at h ⊢
        have hreport := createReport_quiet (Q := fun _ ↦ False) plan.hooks.length st.world
        generalize createReport plan.hooks.length st.world = report at hreport h ⊢
        obtain ⟨ok', w₂⟩ := report
        cases ok' with
        | false => cases h
        | true => exact ⟨rfl, rfl, hreport⟩

/-- Failures are counted exactly where hooks have failed, if none had before. -/
theorem failedPreparation_iff {ids : List Id} {old new : List Event} {failed : Nat}
    (hadds : Adds (Event.ofPrepare ids) old new) (hold : ∀ id ∈ ids, ¬FailedPreparation old id)
    (hcount : prepareFailures new = prepareFailures old + failed) :
    (∃ id ∈ ids, FailedPreparation new id) ↔ failed ≠ 0 := by
  obtain ⟨added, rfl, hadded⟩ := hadds
  have hfailed : added.countP Event.prepareFailed = failed := by
    rw [prepareFailures, prepareFailures, List.countP_append] at hcount
    omega
  rw [← hfailed, ← Nat.pos_iff_ne_zero, List.countP_pos_iff]
  constructor
  · rintro ⟨id, hid, e, he, habout, hfails⟩
    rcases List.mem_append.mp he with he | he
    · exact ⟨e, he, hfails⟩
    · exact absurd ⟨e, he, habout, hfails⟩ (hold id hid)
  · rintro ⟨e, he, hfails⟩
    cases e with
    | prepareSettled hook outcome =>
      exact ⟨hook, (hadded _ he).1, _, List.mem_append_left _ he, rfl, hfails⟩
    | _ => cases hfails

/-- **A preparation is honest** where no earlier call has prepared a hook or failed to, and no pass
settles a hook as stale. -/
theorem preparePlan_honest (hidle : plan.state = .analyzed → ∀ hook ∈ plan.hooks, hook.Idle)
    (hfresh : plan.state = .analyzed → plan.Unprepared w.history)
    (hcurrent : ∀ st ∈ preparePasses engines plan w, ¬st.Outdated engines plan.runtime) :
    PreparesHonestly engines plan w := by
  have hcounted : plan.state = .analyzed → ∀ w₁, preparePasses engines plan w =
      visited (fun st ↦ decide (st.index < plan.hooks.length))
        (prepareIter engines plan.runtime plan.domains (domainGateOk plan)) plan.hooks.length
        (.start plan.hooks w₁) → _ :=
    fun hstate w₁ hpasses ↦ prepareLoop_counted engines (hidle hstate)
      (fun hook hmem ↦ (hfresh hstate hook hmem).1) (hpasses ▸ hcurrent)
  have hstate : (preparePlan engines plan w).1 = .ok → plan.state = .analyzed := by
    intro hok
    by_contra hne
    rw [preparePlan, if_pos hne] at hok
    cases hok
  -- what the counters of a call that has gone through amount to
  have hcall : (preparePlan engines plan w).1 = .ok → ∃ st : PrepareState ε,
      (preparePlan engines plan w).2.1.state = st.planState ∧ st.failed ≤ st.attempted ∧
        ((∃ hook ∈ (preparePlan engines plan w).2.1.hooks,
            FailedPreparation (preparePlan engines plan w).2.2.history hook.hookId) ↔
          st.failed ≠ 0) ∧
        ((∀ hook ∈ (preparePlan engines plan w).2.1.hooks, hook.result.outcome ≠ .prepared) ↔
          st.prepared = 0) := by
    intro hok
    obtain ⟨w₁, hbefore, hpasses, hhooks, hplan, hafter⟩ := preparePlan_state engines hok
    have hend := (hcounted (hstate hok) w₁ hpasses).1
    obtain ⟨hprepares, hloop⟩ := prepareLoop_moves engines plan w₁
    have hids := Pointwise.map_eq hprepares Hook.hookId fun _ _ h ↦ h.hookId
    refine ⟨_, hplan, hend.failed_le, ?_, ?_⟩
    · rw [hhooks, hafter.history_eq,
        ← failedPreparation_iff hloop.history (fun id hid ↦ ?_) hend.failed, ← hids]
      · simp only [List.mem_map, exists_exists_and_eq_and]
      · obtain ⟨hook, hmem, rfl⟩ := List.mem_map.mp hid
        rw [hbefore.history_eq]
        exact (hfresh (hstate hok) hook hmem).2
    · rw [hhooks, hend.prepared, Nat.cast_eq_zero, preparedCount, List.countP_eq_zero]
      simp only [decide_eq_true_eq, ne_eq]
  refine ⟨fun st hmem ↦ ?_, fun hok hprepared ↦ ?_, fun hok ↦ ?_⟩
  · rcases preparePlan_passes engines plan w with ⟨hnone, -⟩ | ⟨w₁, hanalyzed, -, hpasses, -, -⟩
    · rw [hnone] at hmem
      exact absurd hmem List.not_mem_nil
    · have hst := (hcounted hanalyzed w₁ hpasses).2 st (hpasses ▸ hmem)
      exact hst.failed_le
  · obtain ⟨st, hplan, -, hfailed, -⟩ := hcall hok
    rw [hplan, PrepareState.planState] at hprepared
    intro hook hmem hfails
    rw [if_neg (hfailed.mp ⟨hook, hmem, hfails⟩)] at hprepared
    split at hprepared <;> cases hprepared
  · obtain ⟨st, hplan, hle, hfailed, hnone⟩ := hcall hok
    rw [hplan, hfailed, hnone, PrepareState.planState]
    split
    · rename_i hzero
      exact ⟨by simp, fun h ↦ absurd hzero h.1⟩
    · rename_i hne
      split
      · rename_i hboth
        exact ⟨fun _ ↦ ⟨hne, hboth.1⟩, fun _ ↦ rfl⟩
      · rename_i hneither
        refine ⟨by simp, fun h ↦ absurd ⟨h.2, ?_⟩ hneither⟩
        omega

end Call

end HookKit
