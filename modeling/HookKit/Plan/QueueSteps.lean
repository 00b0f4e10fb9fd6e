import HookKit.Plan.CommitSteps
import HookKit.Plan.Drain

/-!
# What releasing and draining do

* `releaseHooks_spec` — the waiting hooks of a released plan move to the runtime's queue.
* `DrainPass` — the ways a queued hook can go.
* `drainLoop_induction` — the rule for the loop of a drain.
-/

set_option autoImplicit false

namespace HookKit

variable {ε : Type} (engines : EngineRef → Engine ε)

/-! ## Release -/

theorem freeHook_quiet (hook : Hook) (w : World ε) :
    w.Quiet Event.ofState (freeHook engines hook w) :=
  releasePrepared_quiet engines hook w

/-- The hooks that wait for their target are adopted, as long as the queue can grow. -/
theorem releaseHooks_spec (hooks : List Hook) (runtime : Runtime) (w : World ε) :
    (∃ adopted capacity, (releaseHooks engines hooks runtime w).1 =
        { runtime with pending := runtime.pending ++ adopted, pendingCapacity := capacity } ∧
      adopted.Sublist hooks ∧ ∀ hook ∈ adopted, hook.result.outcome = .pending) ∧
      w.Quiet Event.ofState (releaseHooks engines hooks runtime w).2 := by
  induction hooks generalizing runtime w with
  | nil =>
    exact ⟨⟨[], runtime.pendingCapacity, by simp [releaseHooks], .slnil, by simp⟩, .refl w⟩
  | cons hook rest ih =>
    -- a hook that is not adopted is freed
    have hfreed : (∃ adopted capacity,
          (releaseHooks engines rest runtime (freeHook engines hook w)).1 =
            { runtime with pending := runtime.pending ++ adopted, pendingCapacity := capacity } ∧
          adopted.Sublist (hook :: rest) ∧ ∀ hook ∈ adopted, hook.result.outcome = .pending) ∧
        w.Quiet Event.ofState (releaseHooks engines rest runtime (freeHook engines hook w)).2 := by
      obtain ⟨⟨adopted, capacity, heq, hsub, hpending⟩, hquiet⟩ :=
        ih runtime (freeHook engines hook w)
      exact ⟨⟨adopted, capacity, heq, hsub.cons hook, hpending⟩,
        (freeHook_quiet engines hook w).trans hquiet⟩
    rw [releaseHooks]
    split
    · rename_i hpending
      rw [adoptPendingHook]
      generalize growArray runtime.pending.length runtime.pendingCapacity w.env = grown
      obtain ⟨ok, env⟩ := grown
      cases ok with
      | false =>
        obtain ⟨⟨adopted, capacity, heq, hsub, hadopted⟩, hquiet⟩ :=
          ih runtime (freeHook engines hook (w.setEnv env))
        exact ⟨⟨adopted, capacity, heq, hsub.cons hook, hadopted⟩,
          ((World.quiet_setEnv w env).trans (freeHook_quiet engines hook _)).trans hquiet⟩
      | true =>
        obtain ⟨⟨adopted, capacity, heq, hsub, hadopted⟩, hquiet⟩ := ih
          { runtime with
            pending := runtime.pending ++ [hook]
            pendingCapacity := grownCapacity runtime.pending.length runtime.pendingCapacity }
          (w.setEnv env)
        refine ⟨⟨hook :: adopted, capacity, ?_, hsub.cons_cons hook, fun h hh ↦ ?_⟩,
          (World.quiet_setEnv w env).trans hquiet⟩
        · dsimp only
          rw [heq, List.append_assoc]
          rfl
        · rcases List.mem_cons.mp hh with rfl | hh
          · exact hpending
          · exact hadopted h hh
    · exact hfreed

theorem freeAll_quiet (hooks : List Hook) (w : World ε) :
    w.Quiet Event.ofState (hooks.foldl (fun w hook ↦ freeHook engines hook w) w) := by
  induction hooks generalizing w with
  | nil => exact .refl w
  | cons hook rest ih => exact (freeHook_quiet engines hook w).trans (ih _)

/-! ## One queued hook -/

/-- The ways a queued hook can go. -/
inductive DrainPass (engines : EngineRef → Engine ε) (runtime : RuntimeId) (hook : Hook)
    (w : World ε) : Drained → World ε → Prop where
  /-- Its target is still not there. -/
  | waits {hook' : Hook} {w' : World ε} (hsame : hook.Same hook')
      (hinstalled : hook'.installed = hook.installed) (hpending : hook'.result.outcome = .pending)
      (hquiet : w.Quiet (Event.ofPrepare [hook.hookId]) w') :
    DrainPass engines runtime hook w ⟨hook'.result, some hook'⟩ w'
  /-- It fails to prepare. -/
  | fails {result : HookResult} {w' : World ε} (houtcome : result.outcome = .failedSafe)
      (hquiet : w.Quiet (Event.ofPrepare [hook.hookId]) w') :
    DrainPass engines runtime hook w ⟨result, none⟩ w'
  /-- It is prepared and committed. -/
  | commits {hook₁ hook' : Hook} {out : HookResult} {w₁ w₂ w' : World ε}
      (hprepared : drainPrepare engines runtime hook w = (.ok, hook₁, out, w₁))
      (htouched : hook.Touched hook₁)
      (hbefore : w.Quiet (Event.ofPrepare [hook.hookId]) w₁)
      (hcommitted : CommittedOne engines .drain runtime hook₁ w₁ hook' w₂)
      (hafter : w₂.Quiet Event.ofState w') :
    DrainPass engines runtime hook w ⟨hook'.result, none⟩ w'

theorem DrainPass.adds {engines : EngineRef → Engine ε} {runtime : RuntimeId} {hook : Hook}
    {w w' : World ε} {drained : Drained} (h : DrainPass engines runtime hook w drained w') :
    w.Adds (fun _ ↦ True) w' := by
  cases h with
  | waits _ _ _ hquiet => exact hquiet.toAdds.mono fun _ _ ↦ trivial
  | fails _ hquiet => exact hquiet.toAdds.mono fun _ _ ↦ trivial
  | commits _ _ hbefore hcommitted hafter =>
    exact ((hbefore.toAdds.mono fun _ _ ↦ trivial).trans hcommitted.adds).trans
      (hafter.toAdds.mono fun _ _ ↦ trivial)

theorem drainPrepare_spec (runtime : RuntimeId) (hook : Hook) (w : World ε) :
    hook.Touched (drainPrepare engines runtime hook w).2.1 ∧
      w.Quiet (Event.ofPrepare [hook.hookId]) (drainPrepare engines runtime hook w).2.2.2 := by
  rw [drainPrepare]
  have htouched := dispatchPrepare_touched engines .drain runtime hook w
  have hquiet := dispatchPrepare_quiet engines .drain runtime hook (List.mem_singleton_self _) w
  generalize dispatchPrepare engines .drain runtime hook w = dispatched at htouched hquiet ⊢
  obtain ⟨result, hook₁, diag, w₁⟩ := dispatched
  dsimp only at htouched hquiet ⊢
  obtain ⟨htouched₂, hquiet₂⟩ := validatePrepareEffects_spec engines result hook₁ diag w₁
  exact ⟨htouched.trans htouched₂, hquiet.trans (hquiet₂.mono fun _ ↦ Event.ofState.ofPrepare)⟩

theorem drainOne_pass (runtime : RuntimeId) (ownerId : Id) (hook : Hook) (ledger : Ledger)
    (w : World ε) :
    DrainPass engines runtime hook w (drainOne engines runtime ownerId hook ledger w).1
      (drainOne engines runtime ownerId hook ledger w).2.2 := by
  rw [drainOne]
  obtain ⟨htouched, hquiet⟩ := drainPrepare_spec engines runtime hook w
  generalize hprepared : drainPrepare engines runtime hook w = prepared at htouched hquiet ⊢
  obtain ⟨result, hook₁, out, w₁⟩ := prepared
  dsimp only at htouched hquiet
  have hlogged : ∀ o, o ≠ .active → w.Quiet (Event.ofPrepare [hook.hookId])
      (w₁.log (.prepareSettled hook₁.hookId o)) := fun o ho ↦
    hquiet.log ⟨by rw [htouched.hookId]; exact List.mem_singleton_self _, ho⟩
  cases result with
  | notApplicable =>
    -- what `waits` says of the hook is said of it with its new result
    have hsame : hook.Same { hook₁ with
        result := { out with outcome := .pending, retryable := true, currentlyValid := false } } :=
      ⟨htouched.hookId, htouched.spec, htouched.targetKey, htouched.matchedEngine⟩
    exact .waits hsame htouched.installed rfl (hlogged .pending nofun)
  | failed =>
    exact .fails rfl ((hlogged .failedSafe nofun).trans ((freeHook_quiet engines _ _).mono
      fun _ ↦ Event.ofState.ofPrepare))
  | ok =>
    exact .commits hprepared htouched hquiet (commitOneHook_spec engines _ _ _ _ _ _ _ _ _)
      (freeHook_quiet engines _ _)

/-! ## The loop -/

/-- **The rule for the loop of a drain.** -/
theorem drainLoop_induction {runtime : RuntimeId} {ownerId : Id} {hooks : List Hook}
    {ledger : Ledger} {w : World ε} (I : World ε → Prop) (hstart : I w)
    (hpass : ∀ hook ∈ hooks, ∀ w drained w', I w → DrainPass engines runtime hook w drained w' →
      I w') :
    I (drainLoop engines runtime ownerId hooks ledger w).2.2 := by
  induction hooks generalizing ledger w with
  | nil => exact hstart
  | cons hook rest ih =>
    have h := hpass hook List.mem_cons_self w _ _ hstart
      (drainOne_pass engines runtime ownerId hook ledger w)
    exact ih h fun hook' hmem ↦ hpass hook' (List.mem_cons_of_mem hook hmem)

/-- What stays in the queue was there before, and still waits. -/
theorem drainLoop_kept (runtime : RuntimeId) (ownerId : Id) (hooks : List Hook) (ledger : Ledger)
    (w : World ε) :
    ∃ from_, List.Sublist from_ hooks ∧
      List.Forall₂ (fun h h' ↦ h.Same h' ∧ h'.installed = h.installed ∧
        h'.result.outcome = .pending) from_
        ((drainLoop engines runtime ownerId hooks ledger w).1.filterMap Drained.kept) := by
  induction hooks generalizing ledger w with
  | nil => exact ⟨[], .slnil, .nil⟩
  | cons hook rest ih =>
    have hpass := drainOne_pass engines runtime ownerId hook ledger w
    rw [drainLoop]
    generalize drainOne engines runtime ownerId hook ledger w = one at hpass ⊢
    obtain ⟨drained, ledger₁, w₁⟩ := one
    dsimp only at hpass ⊢
    obtain ⟨from_, hsub, hrest⟩ := ih ledger₁ w₁
    cases hpass with
    | waits hsame hinstalled hpending =>
      exact ⟨hook :: from_, hsub.cons_cons hook, .cons ⟨hsame, hinstalled, hpending⟩ hrest⟩
    | fails => exact ⟨from_, hsub.cons hook, hrest⟩
    | commits => exact ⟨from_, hsub.cons hook, hrest⟩

/-- A drain that got as far as its loop. -/
structure DrainRan (engines : EngineRef → Engine ε) (runtimeId : RuntimeId) (runtime : Runtime)
    (w w₁ : World ε) (results : List HookResult) (runtime' : Runtime) (w' : World ε) : Prop where
  start : w₁ = w.alloc.2.alloc.2
  before : w.Quiet (fun _ ↦ False) w₁
  results : results = [] ∨ results = (drainLoop engines runtimeId runtime.ownerId runtime.pending
    .empty w₁).1.map Drained.result
  runtimeAfter : ∃ artifacts, runtime' = { runtime with
    pending := (drainLoop engines runtimeId runtime.ownerId runtime.pending .empty w₁).1.filterMap
      Drained.kept
    artifacts := artifacts }
  after : (drainLoop engines runtimeId runtime.ownerId runtime.pending .empty w₁).2.2.Quiet
    (fun _ ↦ False) w'

/-- **A call of `hk_runtime_drain_pending`** has nothing to do or runs out of memory first, or it
runs its loop. -/
theorem drainPending_cases (runtimeId : RuntimeId) (runtime : Runtime) (w : World ε) :
    (∃ status w', drainPending engines runtimeId runtime w = (status, [], .empty, runtime, w') ∧
        w.Quiet (fun _ ↦ False) w') ∨
      ∃ w₁ status results ledger runtime' w',
        drainPending engines runtimeId runtime w = (status, results, ledger, runtime', w') ∧
          DrainRan engines runtimeId runtime w w₁ results runtime' w' := by
  rw [drainPending]
  split
  · exact .inl ⟨_, _, rfl, .refl w⟩
  · have hfirst : w.Quiet (fun _ ↦ False) w.alloc.2 := World.quiet_alloc w
    generalize hw₁ : w.alloc = first at hfirst ⊢
    obtain ⟨ok, w₁⟩ := first
    cases ok with
    | false => exact .inl ⟨_, _, rfl, hfirst⟩
    | true =>
      dsimp only at hfirst ⊢
      have hsecond : w.Quiet (fun _ ↦ False) w₁.alloc.2 := hfirst.trans (World.quiet_alloc w₁)
      generalize hw₂ : w₁.alloc = second at hsecond ⊢
      obtain ⟨ok', w₂⟩ := second
      cases ok' with
      | false => exact .inl ⟨_, _, rfl, hsecond⟩
      | true =>
        refine .inr ⟨w₂, ?_⟩
        have hstart : w₂ = w.alloc.2.alloc.2 := by rw [hw₁, hw₂]
        dsimp only at hsecond ⊢
        generalize hloop : drainLoop engines runtimeId runtime.ownerId runtime.pending .empty w₂ =
          looped
        obtain ⟨drained, ledger, w₃⟩ := looped
        dsimp only
        have hreport := createReport_quiet (Q := fun _ ↦ False)
          (drained.map Drained.result).length w₃
        generalize createReport (drained.map Drained.result).length w₃ = report at hreport ⊢
        obtain ⟨ok'', w₄⟩ := report
        cases ok'' with
        | false =>
          exact ⟨_, _, _, _, w₄, rfl, hstart, hsecond, .inl rfl, ⟨runtime.artifacts, by rw [hloop]⟩,
            by rw [hloop]; exact hreport⟩
        | true =>
          obtain ⟨⟨artifacts, hruntime⟩, hpublish⟩ := publishArtifacts_spec (Q := fun _ ↦ False)
            { runtime with pending := drained.filterMap Drained.kept } ledger w₄
          exact ⟨_, _, _, _, _, rfl, hstart, hsecond, .inr (by rw [hloop]),
            ⟨artifacts, by rw [hloop]; exact hruntime⟩,
            by rw [hloop]; exact hreport.trans hpublish⟩

end HookKit
