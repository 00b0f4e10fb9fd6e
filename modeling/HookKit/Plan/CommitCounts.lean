import HookKit.Plan.Staleness

/-!
# The counters of a commit

Like `hk_plan_prepare`, `hk_plan_commit` computes the state of the plan from what it has counted
since the call began.

* `FailedCommit` — a commit has settled a hook without making it active.
* `CommitState.Tallies` — what a pass counts is what it has done to the hooks.
* `CommitState.Outdated` — a pass that settles a hook as stale; it is counted as failed, but not as
  attempted.
* `CommitsHonestly` — the state that a call leaves tells what has happened to the hooks, in this
  call and in every earlier one.
* `commitPlan_honest` — so it does where no earlier call has failed on a hook.
-/

set_option autoImplicit false

namespace HookKit

open Loop Trace

variable {ε : Type}

/-- A hook is settled by a commit, and is not active. -/
def Event.commitFailed : Event → Bool
  | .commitSettled r => r.outcome ≠ .active
  | _ => false

/-- A commit has settled the hook without making it active. -/
def FailedCommit (history : List Event) (id : Id) : Prop :=
  ∃ e ∈ history, e.about = some id ∧ e.commitFailed = true

instance (history : List Event) (id : Id) : Decidable (FailedCommit history id) :=
  inferInstanceAs (Decidable (∃ e ∈ history, _))

theorem FailedCommit.later {Q : Event → Prop} {old new : List Event} {id : Id}
    (h : FailedCommit old id) (hadds : Adds Q old new) : FailedCommit new id := by
  obtain ⟨e, he, hfails⟩ := h
  exact ⟨e, hadds.mem_old he, hfails⟩

/-- A failure that was not added was there before. -/
theorem FailedCommit.before {Q : Event → Prop} {old new : List Event} {id : Id}
    (h : FailedCommit new id) (hadds : Adds Q old new)
    (hQ : ∀ e, Q e → e.about = some id → e.commitFailed = false) : FailedCommit old id := by
  obtain ⟨e, he, habout, hfails⟩ := h
  rcases hadds.mem he with hold | hnew
  · exact ⟨e, hold, habout, hfails⟩
  · rw [hQ e hnew habout] at hfails
    cases hfails

/-- What is written down when a hook is settled. -/
theorem FailedCommit.of_settled {engines : EngineRef → Engine ε}
    {history : List Event} {hook : Hook}
    {path : Path} {required : Option Ptr} {published : Ptr}
    (h : .commitSettled (hook.settledRecord engines path required published) ∈ history)
    (hne : hook.result.outcome ≠ .active) : FailedCommit history hook.hookId :=
  ⟨_, h, rfl, decide_eq_true hne⟩

/-! ## One pass -/

/-- Nothing has failed between two processes. -/
def World.Succeeds (w w' : World ε) : Prop := w.Adds (fun e ↦ e.commitFailed = false) w'

/-- The hook was not changed but to become active. -/
def Hook.Activates (h h' : Hook) : Prop := h' = h ∨ h'.result.outcome = .active

theorem Hook.Activates.refl (h : Hook) : h.Activates h := .inl rfl

theorem Hook.Activates.trans (h h₁ h₂ : Hook) (hfirst : h.Activates h₁)
    (hsecond : h₁.Activates h₂) :
    h.Activates h₂ := by
  rcases hsecond with rfl | hactive
  · exact hfirst
  · exact .inr hactive

/-- What a pass counts is what it has done. -/
structure CommitState.Tallies (st st' : CommitState ε) : Prop where
  attempted : st'.active + st'.failed + st.attempted ≤ st.active + st.failed + st'.attempted
  failed_le : st.failed ≤ st'.failed
  clean : st'.failed = st.failed →
    st.world.Succeeds st'.world ∧ List.Forall₂ Hook.Activates st.hooks st'.hooks
  failed : st'.failed ≠ st.failed → ∃ hook ∈ st.hooks, FailedCommit st'.world.history hook.hookId

/-- The pass comes to a hook that it settles as stale. -/
def CommitState.Outdated (engines : EngineRef → Engine ε) (plan : CommitPlan) (st : CommitState ε) :
    Prop :=
  ∃ hook ∈ st.reached plan, st.waveCount engines plan ≤ 1 ∧ domainRefused plan hook st = none ∧
    hook.result.imageGeneration ≠ st.world.env.generation plan.runtime

instance CommitState.Outdated.decidable (engines : EngineRef → Engine ε) (plan : CommitPlan)
    (st : CommitState ε) : Decidable (st.Outdated engines plan) :=
  inferInstanceAs (Decidable (∃ hook ∈ st.reached plan, _))

variable {engines : EngineRef → Engine ε} {plan : CommitPlan} {st : CommitState ε}

/-- One hook is settled. -/
theorem CommitState.tallies_settled {index : Nat} {hook hook' : Hook} {ledger : Ledger}
    {mid : World ε} {path : Path} {required : Option Ptr} {published : Ptr}
    (hget : st.hooks[index]? = some hook) (hid : hook'.hookId = hook.hookId)
    (hbefore : st.world.Succeeds mid) :
    st.Tallies { CommitState.settled { st with attempted := st.attempted + 1 } index hook' ledger
      (mid.log (.commitSettled (hook'.settledRecord engines path required published))) with
      position := st.position + 1 } := by
  by_cases hactive : hook'.result.outcome = .active
  · refine ⟨?_, ?_, fun _ ↦ ⟨?_, ?_⟩, fun hne ↦ ?_⟩
    · simp [settled, count, hactive]
      omega
    · simp [settled, count]
    · exact World.Adds.log hbefore (decide_eq_false (not_not.mpr hactive))
    · exact Pointwise.set .refl hget (.inr hactive)
    · simp [settled, count, hactive] at hne
  · refine ⟨?_, ?_, fun heq ↦ ?_, fun _ ↦ ⟨hook, List.mem_of_getElem? hget, ?_⟩⟩
    · simp [settled, count, hactive]
      omega
    · simp [settled, count]
    · simp [settled, count, hactive] at heq
    · rw [← hid]
      exact .of_settled List.mem_cons_self hactive

/-- Refusing a domain counts who is refused. -/
theorem markDomainCommitPreflightFailed_counts (engines : EngineRef → Engine ε) (generation : Nat)
    (domain : Id) (hooks : List Hook) (w : World ε) :
    ((markDomainCommitPreflightFailed engines generation domain hooks w).2.1 = 0 →
        markDomainCommitPreflightFailed engines generation domain hooks w = (hooks, 0, w)) ∧
      ((markDomainCommitPreflightFailed engines generation domain hooks w).2.1 ≠ 0 →
        ∃ hook ∈ hooks, FailedCommit
          (markDomainCommitPreflightFailed engines generation domain hooks w).2.2.history
          hook.hookId) := by
  induction hooks generalizing w with
  | nil => exact ⟨fun _ ↦ rfl, fun h ↦ absurd rfl h⟩
  | cons hook rest ih =>
    rw [markDomainCommitPreflightFailed]
    split
    · rw [settle_eq engines]
      dsimp only
      have hne : (preflightResult generation hook.result).outcome ≠ .active := by
        rcases preflightResult_outcome generation hook.result with h | h <;> rw [h] <;> simp
      have hlater := (markDomainCommitPreflightFailed_spec engines generation domain rest
        (w.log (.commitSettled (Hook.settledRecord engines .single
          { hook with result := preflightResult generation hook.result } none 0)))).2.1.history
      refine ⟨fun h ↦ absurd h (Nat.succ_ne_zero _), fun _ ↦ ⟨hook, List.mem_cons_self, ?_⟩⟩
      refine FailedCommit.later ?_ hlater
      exact @FailedCommit.of_settled _ engines _
        { hook with result := preflightResult generation hook.result } .single none 0
        List.mem_cons_self hne
    · obtain ⟨hnone, hsome⟩ := ih w
      refine ⟨fun h ↦ ?_, fun h ↦ ?_⟩
      · rw [hnone h]
      · obtain ⟨failed, hmem, hfailed⟩ := hsome h
        exact ⟨failed, List.mem_cons_of_mem hook hmem, hfailed⟩

/-- The way through a wave, which goes over more than one position. -/
theorem commitIter_waveCount (hvalid : ∀ i ∈ plan.order, i < st.hooks.length) {index : Nat}
    {hook : Hook} (hvisits : Visits plan st index hook) (hcount : 1 < st.waveCount engines plan) :
    (∃ w, commitIter engines plan st = .stop { st with world := w }) ∨
      ∃ st', commitIter engines plan st = .next st' ∧
        st'.position = st.position + st.waveCount engines plan := by
  obtain ⟨rest, hselected⟩ := hvisits.selected hvalid hcount
  rw [hvisits.iter engines hcount]
  rcases commitGroup_cases engines plan _ st hselected.wave hselected.commits with
    ⟨w, -, hstop⟩ | ⟨settled, ledger, w₁, w', -, hnext⟩
  · exact .inl ⟨w, hstop⟩
  · exact .inr ⟨_, hnext, rfl⟩

/-- **A pass counts what it does**, unless it settles a hook as stale. -/
theorem commitIter_tallies (hvalid : ∀ i ∈ plan.order, i < st.hooks.length)
    (hnodup : plan.order.Nodup) (hcurrent : ¬st.Outdated engines plan) :
    st.Tallies (commitIter engines plan st).state := by
  have hpass := commitIter_pass engines plan st hvalid
  generalize hflow : commitIter engines plan st = flow at hpass ⊢
  cases hpass with
  | skip =>
    exact ⟨le_rfl, le_rfl, fun _ ↦ ⟨.refl _, Pointwise.refl .refl _⟩, fun h ↦ absurd rfl h⟩
  | exhausted hquiet =>
    refine ⟨le_rfl, le_rfl, fun _ ↦ ⟨?_, Pointwise.refl .refl _⟩, fun h ↦ absurd rfl h⟩
    exact hquiet.toAdds.mono fun _ ↦ False.elim
  | @wave index count hook rest settled ledger w₁ w' hvisits hcount hmembers hlater hwave
      hcommitted =>
    have hsplit := @List.length_eq_countP_add_countP _
      (fun h : Hook ↦ decide (h.result.outcome = .active)) settled
    rw [← hcommitted.settles.length_eq, ← hcount] at hsplit
    simp only [decide_eq_true_eq] at hsplit
    refine ⟨?_, Nat.le_add_right _ _, fun heq ↦ ?_, fun hne ↦ ?_⟩
    · simp only [Flow.state_next, CommitState.count, ne_eq]
      omega
    · -- everybody in the wave is active
      have hzero : settled.countP (fun h ↦ decide (h.result.outcome ≠ .active)) = 0 :=
        Nat.add_left_cancel (heq.trans (Nat.add_zero _).symm)
      have hactive : ∀ h ∈ settled, h.result.outcome = .active := fun h hmem ↦ by
        have h := List.countP_eq_zero.mp hzero h hmem
        simpa using h
      refine ⟨hcommitted.world.mono ?_, ?_⟩
      · rintro e (⟨h, -, rfl⟩ | ⟨accepted, flagged, rfl⟩ | ⟨h, -, h', hh', -, published, rfl⟩)
        · rfl
        · rfl
        · exact decide_eq_false (not_not.mpr (hactive h' hh'))
      · refine writeBack_forall₂ .refl .trans
          (fun i hi ↦ hvalid i (List.mem_of_mem_drop (List.mem_of_mem_take hi)))
          ((hnodup.sublist (List.drop_sublist _ _)).sublist (List.take_sublist _ _)) ?_
        rw [hwave]
        have hboth := (List.forall₂_and_left _ _).mpr ⟨hactive, hcommitted.settles.flip⟩
        exact (hboth.imp fun h' h hh ↦ hh.1).flip.imp fun h h' hh ↦ .inr hh
    · -- somebody in the wave is not
      have hpos : settled.countP (fun h ↦ decide (h.result.outcome ≠ .active)) ≠ 0 :=
        fun hzero ↦ hne (congrArg (st.failed + ·) hzero)
      obtain ⟨h', hmem', hne'⟩ := List.countP_pos_iff.mp (Nat.pos_of_ne_zero hpos)
      obtain ⟨h, hmem, hsettles⟩ := Pointwise.mem_right hcommitted.settles hmem'
      obtain ⟨required, published, hrecorded⟩ := hcommitted.recorded h' hmem'
      refine ⟨h, hooksAt_mem (hwave ▸ hmem), ?_⟩
      rw [← hsettles.hookId]
      exact .of_settled hrecorded (of_decide_eq_true hne')
  | @refused index hook domain hvisits hrefused =>
    obtain ⟨hnone, hsome⟩ := markDomainCommitPreflightFailed_counts engines
      (st.world.env.generation plan.runtime) domain st.hooks st.world
    refine ⟨?_, Nat.le_add_right _ _, fun heq ↦ ?_, fun hne ↦ ?_⟩
    · simp only [Flow.state_next, refuseDomain]
      omega
    · have hzero := hnone (Nat.add_left_cancel (heq.trans (Nat.add_zero _).symm))
      simp only [Flow.state_next, refuseDomain]
      rw [hzero]
      exact ⟨.refl _, Pointwise.refl .refl _⟩
    · exact hsome fun hzero ↦ hne (congrArg (st.failed + ·) hzero)
  | @stale index hook out hvisits hallowed hstale hout =>
    -- a pass over one position is not a wave
    refine absurd ⟨hook, CommitState.reached_eq_some.mpr ⟨index, hvisits⟩, ?_, hallowed, hstale⟩
      hcurrent
    by_contra hcount
    rw [not_le] at hcount
    rcases commitIter_waveCount hvalid hvisits hcount with ⟨w, hstop⟩ | ⟨st', hnext, hposition⟩
    · cases hflow.symm.trans hstop
    · cases hflow.symm.trans hnext
      change st.position + 1 = _ at hposition
      omega
  | @dependency index hook out hvisits hallowed hmatches hblocked hout =>
    exact CommitState.tallies_settled hvisits.get rfl (.refl _)
  | @single index hook hook' ledger w' hvisits hallowed hmatches hready hcommitted =>
    obtain ⟨mid, required, published, hadds, rfl, -, -⟩ := hcommitted.world
    refine CommitState.tallies_settled hvisits.get hcommitted.same.hookId (hadds.mono ?_)
    rintro e ⟨rfl, -⟩
    rfl

/-! ## A call -/

/-- The counters of a call that began with `hooks` in `w₀`. -/
structure CommitState.Counted (hooks : List Hook) (w₀ : World ε) (st : CommitState ε) : Prop where
  commits : List.Forall₂ Hook.Commits hooks st.hooks
  attempted : st.active + st.failed ≤ st.attempted
  clean : st.failed = 0 → w₀.Succeeds st.world ∧ List.Forall₂ Hook.Activates hooks st.hooks
  failed : st.failed ≠ 0 → ∃ hook ∈ hooks, FailedCommit st.world.history hook.hookId

theorem CommitState.Counted.start (hooks : List Hook) (w₀ : World ε) :
    (CommitState.start hooks w₀).Counted hooks w₀ :=
  ⟨Pointwise.refl .refl _, le_rfl, fun _ ↦ ⟨.refl _, Pointwise.refl .refl _⟩, fun h ↦ absurd rfl h⟩

theorem CommitState.Counted.pass {hooks : List Hook} {w₀ : World ε} (h : st.Counted hooks w₀)
    (hvalid : ∀ i ∈ plan.order, i < hooks.length) (hnodup : plan.order.Nodup)
    (hcurrent : ¬st.Outdated engines plan) :
    (commitIter engines plan st).state.Counted hooks w₀ := by
  have hvalid' : ∀ i ∈ plan.order, i < st.hooks.length := fun i hi ↦
    h.commits.length_eq ▸ hvalid i hi
  have hpass := commitIter_pass engines plan st hvalid'
  have htallies := commitIter_tallies hvalid' hnodup hcurrent
  have hcommits := hpass.commits hvalid' hnodup
  have hadds := hpass.adds
  generalize (commitIter engines plan st).state = st' at htallies hcommits hadds ⊢
  refine ⟨Pointwise.trans (fun _ _ _ ↦ .trans) h.commits hcommits, ?_, fun hzero ↦ ?_, fun hne ↦ ?_⟩
  · have hbefore := h.attempted
    have hpass := htallies.attempted
    omega
  · have hle := htallies.failed_le
    obtain ⟨hworld, hhooks⟩ := h.clean (by omega)
    obtain ⟨hworld', hhooks'⟩ := htallies.clean (by omega)
    exact ⟨World.Adds.trans hworld hworld', Pointwise.trans .trans hhooks hhooks'⟩
  · by_cases heq : st'.failed = st.failed
    · obtain ⟨hook, hmem, hfailed⟩ := h.failed (heq ▸ hne)
      exact ⟨hook, hmem, hfailed.later hadds.history⟩
    · obtain ⟨hook, hmem, hfailed⟩ := htallies.failed heq
      obtain ⟨before, hbefore, hsame⟩ := Pointwise.mem_right h.commits hmem
      exact ⟨before, hbefore, hsame.hookId ▸ hfailed⟩

/-- No commit has failed on a hook of the plan, and none of them is stale. -/
def Plan.Unfailed (plan : Plan) (history : List Event) : Prop :=
  ∀ hook ∈ plan.hooks, hook.result.outcome ≠ .stalePlan ∧ ¬FailedCommit history hook.hookId

instance (plan : Plan) (history : List Event) : Decidable (plan.Unfailed history) :=
  inferInstanceAs (Decidable (∀ hook ∈ plan.hooks, _))

/-- **What `hk_plan_commit` is honest about.**  Inside the call not more has failed than was
attempted; the plan is only COMMITTED when no hook has ever failed a commit or gone stale, and
otherwise one has failed. -/
structure CommitsHonestly (engines : EngineRef → Engine ε) (runtime : Runtime) (plan : Plan)
    (w : World ε) : Prop where
  counts : ∀ pass ∈ commitPasses engines runtime plan w,
    (commitIter engines pass.1 pass.2).state.failed ≤
      (commitIter engines pass.1 pass.2).state.attempted
  committed : (commitPlan engines runtime plan w).1 = .ok →
    (commitPlan engines runtime plan w).2.1.state = .committed →
      (commitPlan engines runtime plan w).2.1.Unfailed
        (commitPlan engines runtime plan w).2.2.2.history
  uncommitted : (commitPlan engines runtime plan w).1 = .ok →
    (commitPlan engines runtime plan w).2.1.state ≠ .committed →
      ∃ hook ∈ (commitPlan engines runtime plan w).2.1.hooks,
        FailedCommit (commitPlan engines runtime plan w).2.2.2.history hook.hookId

theorem CommitRan.passes {runtime runtime' : Runtime} {plan plan' : Plan} {w w₁ w' : World ε}
    {order : List Nat} {status : Status}
    (h : CommitRan engines runtime plan w order w₁ status plan' runtime' w') :
    commitPasses engines runtime plan w =
      (commitVisited engines (plan.toCommit runtime order) plan.hooks w₁).map
        (plan.toCommit runtime order, ·) := by
  rw [commitPasses, if_neg, h.allocated]
  rintro ⟨hprepared, hpartly⟩
  exact h.accepted.elim hprepared hpartly

theorem CommitState.planState_eq_committed {st : CommitState ε} :
    st.planState = .committed ↔ st.failed = 0 := by
  rw [planState]
  split
  · rename_i hzero
    exact iff_of_true rfl hzero
  · rename_i hne
    refine iff_of_false ?_ hne
    split <;> simp

/-- The counters are right when the loop is done, and after every pass. -/
theorem commitLoop_counted {hooks : List Hook} {w₁ : World ε} (hnodup : plan.order.Nodup)
    (hvalid : ∀ i ∈ plan.order, i < hooks.length)
    (hcurrent : ∀ st ∈ commitVisited engines plan hooks w₁, ¬st.Outdated engines plan) :
    (commitLoop engines plan hooks w₁).state.Counted hooks w₁ ∧
      ∀ st ∈ commitVisited engines plan hooks w₁,
        (commitIter engines plan st).state.Counted hooks w₁ := by
  have hpass : ∀ st ∈ commitVisited engines plan hooks w₁, st.Counted hooks w₁ →
      (commitIter engines plan st).state.Counted hooks w₁ :=
    fun st hmem h ↦ h.pass hvalid hnodup (hcurrent st hmem)
  refine ⟨run_invariant_visited (fun st : CommitState ε ↦ st.Counted hooks w₁) _
    hpass (.start hooks w₁),
    fun st hmem ↦ hpass st hmem ?_⟩
  exact (visited_invariant (fun st : CommitState ε ↦ st.Counted hooks w₁) _ hmem hpass
    (.start hooks w₁)).2.1

/-- **A commit is honest** where no earlier call has failed on a hook of the plan, and no pass
settles a hook as stale. -/
theorem commitPlan_honest {runtime : Runtime} {plan : Plan} {w : World ε}
    (hfresh : plan.state = .prepared ∨ plan.state = .partly → plan.Unfailed w.history)
    (hcurrent : ∀ pass ∈ commitPasses engines runtime plan w, ¬pass.2.Outdated engines pass.1) :
    CommitsHonestly engines runtime plan w := by
  have hcounts : ∀ pass ∈ commitPasses engines runtime plan w,
      (commitIter engines pass.1 pass.2).state.failed ≤
        (commitIter engines pass.1 pass.2).state.attempted := by
    rcases commitPlan_passes engines runtime plan w with
      ⟨hnone, -⟩ | ⟨order, w₁, -, hnodup, hvalid, hpasses, -, -⟩
    · rw [hnone]
      exact fun pass hmem ↦ absurd hmem List.not_mem_nil
    · rw [hpasses] at hcurrent ⊢
      rintro _ hmem
      obtain ⟨st, hst, rfl⟩ := List.mem_map.mp hmem
      have hcounted :=
        (@commitLoop_counted _ engines (plan.toCommit runtime order) _ _ hnodup hvalid
        fun st hst ↦ hcurrent _ (List.mem_map_of_mem hst)).2 st hst
      have hattempted := hcounted.attempted
      exact (Nat.le_add_left _ _).trans hattempted
  rcases commitPlan_cases engines runtime plan w with
    ⟨status, w', hrefused, heq, -⟩ | ⟨order, w₁, status, plan', runtime', w', heq, hran⟩
  · refine ⟨hcounts, fun hok ↦ ?_, fun hok ↦ ?_⟩ <;>
    · rw [heq] at hok
      exact absurd hok hrefused
  · rw [hran.passes] at hcurrent
    have hcounted := (@commitLoop_counted _ engines (plan.toCommit runtime order) plan.hooks w₁
      hran.nodup (fun i hi ↦ (hran.prepared i hi).lt)
      fun st hst ↦ hcurrent _ (List.mem_map_of_mem hst)).1
    have hafter := hran.after.history_eq
    obtain ⟨state, rfl, hstate⟩ := hran.planAfter
    refine ⟨hcounts, ?_, ?_⟩ <;> rw [heq] <;> dsimp only <;> rw [hafter] <;>
      intro hok hcommitted <;>
      obtain ⟨-, rfl⟩ := hstate.resolve_left fun h ↦ h.1 hok
    · obtain ⟨hworld, hhooks⟩ := hcounted.clean (CommitState.planState_eq_committed.mp hcommitted)
      refine fun hook' hmem' ↦ ⟨?_, fun hfailed ↦ ?_⟩
      · obtain ⟨hook, hmem, rfl | hactive⟩ := Pointwise.mem_right hhooks hmem'
        · exact (hfresh hran.accepted hook' hmem).1
        · rw [hactive]
          exact nofun
      · obtain ⟨hook, hmem, hsame⟩ := Pointwise.mem_right hcounted.commits hmem'
        refine (hfresh hran.accepted hook hmem).2 ?_
        rw [← hsame.hookId, ← hran.before.history_eq]
        exact hfailed.before hworld.history fun e he _ ↦ he
    · obtain ⟨hook, hmem, hfailed⟩ := hcounted.failed
        fun hzero ↦ hcommitted (CommitState.planState_eq_committed.mpr hzero)
      obtain ⟨hook', hmem', hsame⟩ := Pointwise.mem_left hcounted.commits hmem
      exact ⟨hook', hmem', hsame.hookId ▸ hfailed⟩

end HookKit
