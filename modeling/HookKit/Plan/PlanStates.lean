import HookKit.Plan.PrepareCounts
import HookKit.Plan.CommitCounts

/-!
# What the state of a plan says

The state of a plan is computed from counters that start anew in every call.  It tells the truth
about the calls before as long as these have not got anywhere: a preparation that ran out of memory
is forgotten by the next one, and a commit that failed by the next commit.

* `System.StatesHonest` — what the states of the plans should say, in every call and after it.
* `System.FirstTime` — a call comes to nothing that was tried before, and settles no hook as stale.
* `statesHonest_run` — in a run of such calls the states are honest.
* `committed_after_partial` — committing a plan twice makes it COMMITTED, whatever has failed.
-/

set_option autoImplicit false

namespace HookKit

open Loop Trace

variable {ε : Type} {engines : EngineRef → Engine ε} {stripCode : Ptr → Ptr}

namespace System

variable {s s' : System ε} {op : Op ε} {slot : Nat}

/-! ## The states -/

/-- The counters of a call, and the state a preparation leaves. -/
def HonestCall (engines : EngineRef → Engine ε) (s : System ε) : Op ε → Prop
  | .prepare slot => ∀ plan ∈ s.plans slot, PreparesHonestly engines plan s.world
  | .commit slot => ∀ plan ∈ s.plans slot,
    ∀ pass ∈ commitPasses engines (s.runtimes plan.runtime) plan s.world,
      (commitIter engines pass.1 pass.2).state.failed ≤
        (commitIter engines pass.1 pass.2).state.attempted
  | _ => True

/-- A plan is only COMMITTED when every hook that was ever handed to a commit callback is active,
and none is stale. -/
def CommittedHonest (s : System ε) : Prop :=
  ∀ slot, ∀ plan ∈ s.plans slot, plan.state = .committed → ∀ hook ∈ plan.hooks,
    (∀ c, .commitCall c ∈ s.world.history → c.hook = hook.hookId → hook.result.outcome = .active) ∧
      hook.result.outcome ≠ .stalePlan

/-- The commit of the plan in the slot goes through, and leaves it PARTIAL or FAILED. -/
def FallsShort (engines : EngineRef → Engine ε) (s : System ε) (slot : Nat) : Prop :=
  ∃ plan ∈ s.plans slot, (commitPlan engines (s.runtimes plan.runtime) plan s.world).1 = .ok ∧
    ((commitPlan engines (s.runtimes plan.runtime) plan s.world).2.1.state = .partly ∨
      (commitPlan engines (s.runtimes plan.runtime) plan s.world).2.1.state = .failed)

/-- **The states of the plans are honest** in a run: the calls count right, a plan is COMMITTED for
a reason, and one whose commit fell short is never COMMITTED afterwards. -/
structure StatesHonest (engines : EngineRef → Engine ε) (stripCode : Ptr → Ptr) (s : System ε)
    (ops : List (Op ε)) : Prop where
  calls : Meets engines stripCode (HonestCall engines) s ops
  committed : (s.run engines stripCode ops).CommittedHonest
  final : ∀ before slot between, ops = before ++ .commit slot :: between →
    (s.run engines stripCode before).FallsShort engines slot →
      (∀ op ∈ between, op ≠ .releasePlan slot) →
        ∀ plan ∈ (s.run engines stripCode ops).plans slot, plan.state ≠ .committed

/-- A call on a plan in which nothing has been tried before in vain, and that settles no hook as
stale: a preparation comes to hooks that no call has prepared or failed to, a commit to a plan in
which no commit has failed and no hook is stale. -/
def FirstTime (engines : EngineRef → Engine ε) (s : System ε) : Op ε → Prop
  | .prepare slot => ∀ plan ∈ s.plans slot,
    (plan.state = .analyzed → plan.Unprepared s.world.history) ∧
      ∀ st ∈ preparePasses engines plan s.world, ¬st.Outdated engines plan.runtime
  | .commit slot => ∀ plan ∈ s.plans slot,
    (plan.state = .prepared ∨ plan.state = .partly → plan.Unfailed s.world.history) ∧
      ∀ pass ∈ commitPasses engines (s.runtimes plan.runtime) plan s.world,
        ¬pass.2.Outdated engines pass.1
  | _ => True

instance : ∀ (s : System ε) (op : Op ε), Decidable (s.FirstTime engines op)
  | s, .prepare slot => inferInstanceAs (Decidable (∀ plan ∈ s.plans slot, _ ∧ _))
  | s, .commit slot => inferInstanceAs (Decidable (∀ plan ∈ s.plans slot, _ ∧ _))
  | _, .createPlan .. | _, .defineDomain .. | _, .addHook .. | _, .analyze .. | _, .releasePlan ..
  | _, .drain .. | _, .releaseRuntime .. | _, .register .. | _, .outside .. =>
    inferInstanceAs (Decidable True)

/-! ## One call -/

theorem Sound.prepare_honest (hs : s.Sound)
    (hop : s.FirstTime engines (.prepare slot)) {plan : Plan}
    (hplan : s.plans slot = some plan) : PreparesHonestly engines plan s.world := by
  obtain ⟨hfresh, hcurrent⟩ := hop plan hplan
  refine preparePlan_honest engines (fun hstate hook hmem ↦ ?_) hfresh hcurrent
  exact ((hs.plans slot plan hplan).uncommitted (.inr hstate) hook hmem).2

theorem commit_honest (hop : s.FirstTime engines (.commit slot)) {plan : Plan}
    (hplan : s.plans slot = some plan) :
    CommitsHonestly engines (s.runtimes plan.runtime) plan s.world :=
  have h := hop plan hplan
  commitPlan_honest h.1 h.2

theorem Sound.honestCall (hs : s.Sound) (hop : s.FirstTime engines op) :
    s.HonestCall engines op := by
  cases op with
  | prepare slot => exact fun plan hplan ↦ hs.prepare_honest hop hplan
  | commit slot => exact fun plan hplan ↦ (commit_honest hop hplan).counts
  | _ => trivial

/-- A drain is about the hooks in the queue. -/
theorem drainPending_about {id : RuntimeId} {runtime runtime' : Runtime} {status : Status}
    {results : List HookResult} {ledger : Ledger} {w w' : World ε}
    (hcall : drainPending engines id runtime w = (status, results, ledger, runtime', w')) :
    w.Adds (fun e ↦ ∀ id, e.about = some id → id ∈ runtime.pending.map Hook.hookId) w' := by
  refine drainPending_world (fun w₁ w₂ hquiet h ↦ ?_)
    (fun hook hmem w₁ drained w₂ h hpass ↦ ?_) hcall
    (.refl w)
  · exact World.Adds.trans h (hquiet.toAdds.mono fun _ ↦ False.elim)
  · refine World.Adds.trans h (hpass.about.mono fun e he id habout ↦ ?_)
    rw [he id habout]
    exact List.mem_map_of_mem hmem

/-- Only a commit fails on a hook of a plan. -/
theorem Stepped.failures (hs : s.Sound) (h : Stepped engines s op s') :
    s.world.Adds (fun e ↦ e.commitFailed = true → ∃ place,
      (∀ id, e.about = some id → id ∈ (s.held place).map Hook.hookId) ∧
        ∀ slot, place = .slot slot → op = .commit slot) s'.world := by
  have hquiet : ∀ {Q : Event → Prop} {w' : World ε}, s.world.Quiet Q w' →
      (∀ e, Q e → e.commitFailed = false) → s.world.Adds (fun e ↦ e.commitFailed = true → ∃ place,
        (∀ id, e.about = some id → id ∈ (s.held place).map Hook.hookId) ∧
          ∀ slot, place = .slot slot → op = .commit slot) w' :=
    fun hquiet hQ ↦ hquiet.toAdds.mono fun e he hfails ↦ by rw [hQ e he] at hfails; cases hfails
  have hstate : ∀ e : Event, e.ofState → e.commitFailed = false := fun e he ↦ by
    cases e <;> first | rfl | exact he.elim
  cases h with
  | idle h => exact hquiet h fun _ ↦ False.elim
  | drafted _ _ _ h => exact hquiet h fun _ ↦ False.elim
  | analyzed _ _ _ _ _ h => exact hquiet h fun _ ↦ False.elim
  | @prepared slot plan _ _ _ hplan hcall =>
    have h := (preparePlan_spec engines plan s.world).1
    rw [hcall] at h
    exact hquiet h fun e he ↦ by cases e <;> first | rfl | exact he.elim
  | @committed slot plan _ _ _ _ hplan hcall =>
    have h := (commitPlan_sound hcall (hs.nodup_plan hplan) (hs.accounted_plan hplan)).added
    refine h.mono fun e he _ ↦ ⟨.slot slot, ?_, ?_⟩
    · rw [Sound.held_slot hplan]
      exact he
    · rintro _ ⟨⟩
      rfl
  | @released slot plan _ _ hplan hcall =>
    have h := (releaseHooks_spec engines plan.hooks (s.runtimes plan.runtime) s.world).2
    rw [← releasePlan, hcall] at h
    exact hquiet h hstate
  | @drained runtime _ _ _ _ _ hcall =>
    exact (drainPending_about hcall).mono fun e he _ ↦ ⟨.queue runtime, he, by simp⟩
  | @freed runtime _ _ hcall =>
    have h := @freePendingHooks_quiet _ engines (s.runtimes runtime) s.world
    rw [hcall] at h
    exact hquiet h hstate

/-- A failure that no commit of the plan has added was there before. -/
theorem Stepped.failed_before (hs : s.Sound) (h : Stepped engines s op s') (hop : op ≠ .commit slot)
    {hook : Hook} (hmem : hook ∈ s.planHooks slot)
    (hfailed : FailedCommit s'.world.history hook.hookId) :
    FailedCommit s.world.history hook.hookId := by
  refine hfailed.before (h.failures hs).history fun e he habout ↦ ?_
  by_contra hfails
  obtain ⟨place, hids, hcommit⟩ := he (Bool.of_not_eq_false hfails)
  have hplace : place = .slot slot := by
    by_contra hne
    exact hs.apart.disjoint place (.slot slot) hne _ (hids _ habout) (List.mem_map_of_mem hmem)
  exact hop (hcommit slot hplace)

/-- A plan that is COMMITTED after a call was so before, if the call did not commit it. -/
theorem Stepped.committed_before (h : Stepped engines s op s')
    (hop : op ≠ .commit slot) {plan : Plan}
    (hplan : s'.plans slot = some plan) (hstate : plan.state = .committed) :
    s.plans slot = some plan := by
  have hupdate : ∀ {slot' : Nat} {plan' : Option Plan},
      Function.update s.plans slot' plan' slot = some plan →
        slot' = slot ∧ plan' = some plan ∨ s.plans slot = some plan := by
    intro slot' plan' h
    by_cases hslot : slot = slot'
    · subst hslot
      rw [Function.update_self] at h
      exact .inl ⟨rfl, h⟩
    · rw [Function.update_of_ne hslot] at h
      exact .inr h
  cases h with
  | idle => exact hplan
  | drafted _ hafter =>
    refine (hupdate hplan).resolve_left ?_
    rintro ⟨rfl, heq⟩
    cases heq
    rw [hstate] at hafter
    cases hafter
  | analyzed _ _ hafter =>
    refine (hupdate hplan).resolve_left ?_
    rintro ⟨rfl, heq⟩
    cases heq
    rw [hstate] at hafter
    rcases hafter with h | h <;> cases h
  | @prepared slot' before after w' status hbefore hcall =>
    rcases hupdate hplan with ⟨rfl, heq⟩ | h
    · cases heq
      obtain ⟨-, hooks, state, hspec, -, hcases⟩ := preparePlan_spec engines before s.world
      rw [hcall] at hspec
      cases hspec
      -- a preparation that is not refused leaves another state
      have hcommitted : before.state = .committed := by
        rcases hcases with h | ⟨-, h | h | h⟩
        · exact h.symm.trans hstate
        all_goals cases h.symm.trans hstate
      rw [preparePlan_refused (by rw [hcommitted]; exact nofun)] at hcall
      rw [hbefore]
      exact congrArg some (congrArg (·.2.1) hcall)
    · exact h
  | @committed slot' =>
    refine (hupdate hplan).resolve_left ?_
    rintro ⟨rfl, -⟩
    exact hop rfl
  | released =>
    refine (hupdate hplan).resolve_left ?_
    rintro ⟨-, h⟩
    cases h
  | drained => exact hplan
  | freed => exact hplan

/-- The hooks of a plan stay in it until it is released. -/
theorem Stepped.keepsHooks (hs : s.Sound) (h : Stepped engines s op s')
    (hop : op ≠ .releasePlan slot) :
    (s.held (.slot slot)).map Hook.hookId ⊆ (s'.held (.slot slot)).map Hook.hookId := by
  have hupdate : ∀ {place : Place} {hooks : List Hook},
      (place = .slot slot → (s.held place).map Hook.hookId ⊆ hooks.map Hook.hookId) →
        (s.held (.slot slot)).map Hook.hookId ⊆
          (Function.update s.held place hooks (.slot slot)).map Hook.hookId := by
    intro place hooks hsub
    by_cases hplace : Place.slot slot = place
    · subst hplace
      rw [Function.update_self]
      exact hsub rfl
    · rw [Function.update_of_ne hplace]
      exact List.Subset.refl _
  have hqueue : ∀ id, Place.slot slot ≠ .queue id := nofun
  cases h with
  | idle => exact List.Subset.refl _
  | drafted _ _ hhooks =>
    rw [held_setWorld, held_setPlan]
    refine hupdate ?_
    rintro ⟨⟩
    rcases hhooks with h | ⟨hook, h, -⟩
    · rw [Option.map_some, Option.getD_some, h]
      exact List.Subset.refl _
    · rw [Option.map_some, Option.getD_some, h, List.map_append]
      exact List.subset_append_left _ _
  | analyzed hplan _ _ _ hhooks =>
    rw [held_setWorld, held_setPlan]
    refine hupdate ?_
    rintro ⟨⟩
    rw [Sound.held_slot hplan, ← Pointwise.map_eq hhooks Hook.hookId fun _ _ h ↦ h.hookId]
    exact List.Subset.refl _
  | @prepared slot' plan _ _ _ hplan hcall =>
    rw [held_setWorld, held_setPlan]
    refine hupdate ?_
    rintro ⟨⟩
    obtain ⟨-, hooks, state, hspec, hprepares, -⟩ := preparePlan_spec engines plan s.world
    rw [hcall] at hspec
    cases hspec
    rw [Sound.held_slot hplan, ← Pointwise.map_eq hprepares Hook.hookId fun _ _ h ↦ h.hookId]
    exact List.Subset.refl _
  | committed hplan hcall =>
    have hsound := commitPlan_sound hcall (hs.nodup_plan hplan) (hs.accounted_plan hplan)
    rw [held_setWorld, held_setRuntime, Function.update_of_ne (hqueue _), held_setPlan]
    refine hupdate ?_
    rintro ⟨⟩
    rw [Sound.held_slot hplan, Option.map_some, Option.getD_some, commits_hookIds hsound.commits]
    exact List.Subset.refl _
  | released =>
    rw [held_setWorld, held_setRuntime, Function.update_of_ne (hqueue _), held_setPlan]
    refine hupdate ?_
    rintro ⟨⟩
    exact absurd rfl hop
  | drained =>
    rw [held_setWorld, held_setRuntime]
    exact hupdate nofun
  | freed =>
    rw [held_setWorld, held_setRuntime]
    exact hupdate nofun

/-- A commit has failed on a hook of the plan in the slot. -/
def Failed (s : System ε) (slot : Nat) : Prop :=
  ∃ hook ∈ s.planHooks slot, FailedCommit s.world.history hook.hookId

theorem Stepped.keeps_failed (hs : s.Sound) (h : Stepped engines s op s')
    (hop : op ≠ .releasePlan slot) (hfailed : s.Failed slot) : s'.Failed slot := by
  obtain ⟨hook, hmem, hfailed⟩ := hfailed
  obtain ⟨hook', hmem', hid⟩ := List.mem_map.mp
    (h.keepsHooks hs hop (List.mem_map_of_mem hmem))
  exact ⟨hook', hmem', hid ▸ hfailed.later (h.failures hs).history⟩

/-! ## Runs -/

/-- No commit has failed on a hook of a COMMITTED plan. -/
def CommittedUnfailed (s : System ε) : Prop :=
  ∀ slot, ∀ plan ∈ s.plans slot, plan.state = .committed → plan.Unfailed s.world.history

/-- A commit that leaves the plan COMMITTED has not failed, nor has any before. -/
theorem step_commit_unfailed (hop : s.FirstTime engines (.commit slot)) (hc : s.CommittedUnfailed)
    {plan : Plan} (hplan : (s.step engines stripCode (.commit slot)).plans slot = some plan)
    (hstate : plan.state = .committed) :
    plan.Unfailed (s.step engines stripCode (.commit slot)).world.history := by
  cases hbefore : s.plans slot with
  | none =>
    rw [(step_empty hbefore).2] at hplan ⊢
    exact hc slot plan hplan hstate
  | some before =>
    have hworld := (step_commit engines stripCode hbefore).2
    have hafter : plan = (commitPlan engines (s.runtimes before.runtime) before s.world).2.1 := by
      rw [step, onPlan, hbefore] at hplan
      replace hplan : Function.update s.plans slot
        (some (commitPlan engines (s.runtimes before.runtime) before s.world).2.1) slot =
          some plan :=
        hplan
      rw [Function.update_self] at hplan
      exact (Option.some.inj hplan).symm
    rw [hworld]
    by_cases hok : (commitPlan engines (s.runtimes before.runtime) before s.world).1 = .ok
    · rw [hafter]
      exact (commit_honest hop hbefore).committed hok (hafter ▸ hstate)
    · -- a commit that does not go through leaves the state
      rcases commitPlan_cases engines (s.runtimes before.runtime) before s.world with
        ⟨_, w', _, heq, hquiet⟩ | ⟨_, _, _, _, _, _, heq, hran⟩
      · rw [heq] at hafter ⊢
        dsimp only at hafter ⊢
        rw [hquiet.history_eq]
        subst hafter
        exact hc slot plan hbefore hstate
      · rw [heq] at hafter hok
        subst hafter
        obtain ⟨state, rfl, ⟨-, hsame⟩ | ⟨h, -⟩⟩ := hran.planAfter
        · subst hsame
          rcases hran.accepted with h | h <;> cases h.symm.trans hstate
        · exact absurd h hok

theorem step_committedUnfailed (hs : s.Sound) (hop : s.FirstTime engines op)
    (hc : s.CommittedUnfailed) : (s.step engines stripCode op).CommittedUnfailed := by
  intro slot plan hplan hstate
  have hstep := step_stepped engines stripCode s op
  by_cases hcommit : op = .commit slot
  · subst hcommit
    exact step_commit_unfailed hop hc hplan hstate
  · have hbefore := hstep.committed_before hcommit hplan hstate
    intro hook hmem
    obtain ⟨hstale, hclean⟩ := hc slot plan hbefore hstate hook hmem
    refine ⟨hstale, fun hfailed ↦ hclean (hstep.failed_before hs hcommit ?_ hfailed)⟩
    rw [planHooks_some hbefore]
    exact hmem

/-- A hook that was handed to an engine has been settled, as active where no commit has failed. -/
theorem CommittedUnfailed.honest (hs : s.Sound) (hc : s.CommittedUnfailed) : s.CommittedHonest := by
  intro slot plan hplan hstate hook hmem
  obtain ⟨hstale, hclean⟩ := hc slot plan hplan hstate hook hmem
  refine ⟨fun c hcalled hid ↦ ?_, hstale⟩
  have hacc := hs.accounted_plan hplan hook hmem
  obtain ⟨r, hr, hrid, -⟩ := hacc.called c hcalled hid
  by_contra hne
  refine hclean ⟨_, hr, congrArg some hrid, decide_eq_true ?_⟩
  rwa [(hacc.settled r hr hrid).1]

/-- What is kept in a run of such calls. -/
theorem run_committedUnfailed (hstart : s.Initial) {ops : List (Op ε)}
    (hmeets : Meets engines stripCode (FirstTime engines) s ops) :
    (s.run engines stripCode ops).CommittedUnfailed := by
  refine (hmeets.invariant (fun s ↦ s.Sound ∧ s.CommittedUnfailed) (fun s op h hop ↦ ?_)
    ⟨hstart.sound, fun slot plan hplan ↦ ?_⟩).2
  · exact ⟨h.1.stepped (step_stepped engines stripCode s op), step_committedUnfailed h.1 hop h.2⟩
  · rw [hstart.plans] at hplan
    cases hplan

/-- A commit that falls short fails on a hook. -/
theorem FallsShort.failed (hop : s.FirstTime engines (.commit slot))
    (h : s.FallsShort engines slot) :
    (s.step engines stripCode (.commit slot)).Failed slot := by
  obtain ⟨plan, hplan, hok, hstate⟩ := h
  obtain ⟨hhooks, hworld⟩ := step_commit engines stripCode hplan
  rw [Failed, hhooks, hworld]
  refine (commit_honest hop hplan).uncommitted hok ?_
  rcases hstate with h | h <;> rw [h] <;> exact nofun

theorem run_keeps_failed (hs : s.Sound) {ops : List (Op ε)}
    (hops : ∀ op ∈ ops, op ≠ .releasePlan slot)
    (h : s.Failed slot) : (s.run engines stripCode ops).Failed slot := by
  induction ops generalizing s with
  | nil => exact h
  | cons op rest ih =>
    have hstep := step_stepped engines stripCode s op
    exact ih (hs.stepped hstep) (fun op' hmem ↦ hops op' (List.mem_cons_of_mem op hmem))
      (hstep.keeps_failed hs (hops op List.mem_cons_self) h)

/-- **In a run whose calls come to nothing that was tried before in vain, and settle no hook as
stale, the states of the plans are honest.** -/
theorem statesHonest_run (engines : EngineRef → Engine ε) (stripCode : Ptr → Ptr) {s : System ε}
    (hstart : s.Initial) (ops : List (Op ε))
    (hmeets : Meets engines stripCode (FirstTime engines) s ops) :
    StatesHonest engines stripCode s ops := by
  refine ⟨?_, (run_committedUnfailed hstart hmeets).honest
    (run_sound engines stripCode hstart ops), ?_⟩
  · exact hmeets.imp Sound (fun s op hs _ ↦ hs.stepped (step_stepped engines stripCode s op))
      (fun s op hs hop ↦ hs.honestCall hop) hstart.sound
  · rintro before slot between rfl hshort hkept plan hplan hstate
    obtain ⟨-, hcommit, hbetween⟩ := hmeets.append
    have hs₁ := run_sound engines stripCode hstart before
    obtain ⟨hook, hmem, hfails⟩ := @run_keeps_failed _ engines stripCode _ slot
      (hs₁.stepped (step_stepped engines stripCode _ (.commit slot))) between hkept
      (hshort.failed hcommit)
    have hunfailed := run_committedUnfailed hstart hmeets slot plan hplan hstate
    rw [run_append] at hplan hunfailed
    change hook ∈ ((s.run engines stripCode before).run engines stripCode
      (.commit slot :: between)).planHooks slot at hmem
    rw [planHooks_some hplan] at hmem
    exact (hunfailed hook hmem).2 hfails

end System

/-! ## A commit that is repeated -/

/-- The commit of the second hook fails. -/
def secondFails : EngineRef → Engine Unit := fun _ ↦ .scripted (fun _ _ ↦ .ok)
  fun _ spec ↦ if spec.replacement = 2 then .none else .complete

theorem System.statesHonest_run_hookTwo :
    System.StatesHonest secondFails id (System.fresh () fun _ ↦ 0) Op.hookTwo :=
  System.statesHonest_run secondFails id (System.fresh_initial () fun _ ↦ 0) Op.hookTwo
    (by decide +kernel)

/-- The first commit leaves the plan PARTIAL; the second one finds nothing to do, and leaves it
COMMITTED with a hook that was handed to its engine and is not active. -/
theorem System.committed_after_partial :
    (System.fresh () fun _ ↦ 0).Initial ∧ ¬System.StatesHonest secondFails id
      (System.fresh () fun _ ↦ 0) (Op.hookTwo ++ [.commit 0]) := by
  refine ⟨System.fresh_initial () fun _ ↦ 0, fun h ↦ ?_⟩
  obtain ⟨plan, hplan, hstate, hook, hmem, c, hc, hid, hne⟩ :
      ∃ plan ∈ ((System.fresh () fun _ ↦ 0).run secondFails id (Op.hookTwo ++ [.commit 0])).plans 0,
        plan.state = .committed ∧ ∃ hook ∈ plan.hooks, ∃ c ∈ commitCalls
          ((System.fresh () fun _ ↦ 0).run secondFails id
            (Op.hookTwo ++ [.commit 0])).world.history,
          c.hook = hook.hookId ∧ hook.result.outcome ≠ .active := by decide +kernel
  exact hne ((h.committed 0 plan hplan hstate hook hmem).1 c (mem_commitCalls hc) hid)

end HookKit
