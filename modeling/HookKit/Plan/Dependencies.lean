import HookKit.Plan.Account

/-!
# Dependencies

A hook that names others in `commit_after` may only become active once they are.  A commit looks at
them; a drain does not.

* `Event.DependencySafe` — an active hook's dependencies were active before it.
* `System.DrainsReady` — no drain is about to commit a hook with an inactive dependency.
* `dependencySafe_run` — with such drains, every run is safe.
-/

set_option autoImplicit false

namespace HookKit

open Trace

variable {ε : Type} {engines : EngineRef → Engine ε}

/-- A hook that becomes active finds every hook it names in `commit_after` active. -/
def Event.DependencySafe : Event → List Event → Prop
  | .commitSettled r, past =>
    r.outcome = .active → ∀ id ∈ r.after, lastOutcome id past = some .active
  | _, _ => True

instance : ∀ (e : Event) (past : List Event), Decidable (e.DependencySafe past)
  | .commitSettled r, past => inferInstanceAs (Decidable
      (r.outcome = .active → ∀ id ∈ r.after, lastOutcome id past = some .active))
  | .commitCall .., _ | .prepareCall .., _ | .prepareSettled .., _ | .obtained .., _
  | .released .., _ | .compensateCall .., _ => inferInstanceAs (Decidable True)

/-- A queued hook that has been prepared, and is about to be committed, has active dependencies
only. -/
def DrainReady (engines : EngineRef → Engine ε) (runtime : RuntimeId) (hook : Hook) (w : World ε) :
    Prop :=
  (drainPrepare engines runtime hook w).1 = .ok → ∀ id ∈ hook.spec.after,
    lastOutcome id (drainPrepare engines runtime hook w).2.2.2.history = some .active

instance (runtime : RuntimeId) (hook : Hook) (w : World ε) :
    Decidable (DrainReady engines runtime hook w) :=
  inferInstanceAs (Decidable ((drainPrepare engines runtime hook w).1 = .ok →
    ∀ id ∈ hook.spec.after,
      lastOutcome id (drainPrepare engines runtime hook w).2.2.2.history = some .active))

/-- Every hook the loop of a drain comes to is ready. -/
def DrainLoopReady (engines : EngineRef → Engine ε) (runtime : RuntimeId) (ownerId : Id) :
    List Hook → Ledger → World ε → Prop
  | [], _, _ => True
  | hook :: rest, ledger, w =>
    DrainReady engines runtime hook w ∧
      DrainLoopReady engines runtime ownerId rest
        (drainOne engines runtime ownerId hook ledger w).2.1
        (drainOne engines runtime ownerId hook ledger w).2.2

instance DrainLoopReady.decidable (runtime : RuntimeId) (ownerId : Id) :
    ∀ (hooks : List Hook) (ledger : Ledger) (w : World ε),
      Decidable (DrainLoopReady engines runtime ownerId hooks ledger w)
  | [], _, _ => inferInstanceAs (Decidable True)
  | hook :: rest, ledger, w =>
    have : Decidable (DrainLoopReady engines runtime ownerId rest
        (drainOne engines runtime ownerId hook ledger w).2.1
        (drainOne engines runtime ownerId hook ledger w).2.2) := DrainLoopReady.decidable _ _ _ _ _
    inferInstanceAs (Decidable (DrainReady engines runtime hook w ∧ DrainLoopReady engines runtime
      ownerId rest (drainOne engines runtime ownerId hook ledger w).2.1
        (drainOne engines runtime ownerId hook ledger w).2.2))

/-- No drain is about to commit a hook while one of its dependencies is not active.  The loop starts
after the two allocations of the call. -/
def System.DrainsReady (engines : EngineRef → Engine ε) (s : System ε) : Op ε → Prop
  | .drain runtime => DrainLoopReady engines runtime (s.runtimes runtime).ownerId
      (s.runtimes runtime).pending .empty s.world.alloc.2.alloc.2
  | _ => True

instance : ∀ (s : System ε) (op : Op ε), Decidable (s.DrainsReady engines op)
  | s, .drain runtime => inferInstanceAs (Decidable (DrainLoopReady engines runtime
      (s.runtimes runtime).ownerId (s.runtimes runtime).pending .empty s.world.alloc.2.alloc.2))
  | _, .createPlan .. | _, .defineDomain .. | _, .addHook .. | _, .analyze .. | _, .prepare ..
  | _, .commit .. | _, .releasePlan .. | _, .releaseRuntime .. | _, .register .. | _, .outside .. =>
    inferInstanceAs (Decidable True)

theorem Event.dependencySafe_of_preparing {e : Event} (h : e.preparing) (past : List Event) :
    e.DependencySafe past := by
  cases e <;> trivial

theorem Event.dependencySafe_of_notActive {e : Event} (h : e.notActive) (past : List Event) :
    e.DependencySafe past := by
  cases e with
  | commitSettled r => exact fun hactive ↦ absurd hactive h
  | _ => trivial

/-- A hook that is committed by itself when its dependencies are active. -/
theorem CommittedOne.dependencySafe {path : Path} {runtime : RuntimeId} {hook hook' : Hook}
    {w w' : World ε} (h : CommittedOne engines path runtime hook w hook' w')
    (hready : ∀ id ∈ hook.spec.after, lastOutcome id w.history = some .active)
    (hpast : Always Event.DependencySafe w.history) : Always Event.DependencySafe w'.history := by
  obtain ⟨mid, required, published, hadds, rfl, -, -⟩ := h.world
  have hmid : Always Event.DependencySafe mid.history := by
    refine hpast.adds hadds.history ?_
    rintro e past ⟨rfl, -⟩
    trivial
  refine hmid.cons fun _ id hid ↦ ?_
  -- handing the hook to its engine gives nobody an outcome
  rw [lastOutcome_adds (hadds.history.mono ?_)]
  · refine hready id ?_
    rw [← h.same.spec]
    exact hid
  · rintro e ⟨rfl, -⟩
    rfl

/-- Every dependency of a hook that is ready is an active hook of the plan. -/
theorem dependenciesActive_lastOutcome {hooks : List Hook} {hook : Hook} {history : List Event}
    (hacc : ∀ hook ∈ hooks, hook.Accounted history) (h : dependenciesActive hooks hook = true) :
    ∀ id ∈ hook.spec.after, lastOutcome id history = some .active := by
  intro id hid
  have hany := List.all_eq_true.mp h id hid
  obtain ⟨dependency, hfound, hactive⟩ := (Option.any_eq_true _ _).mp hany
  have hmem := List.mem_of_find?_eq_some hfound
  have hdependency : dependency.hookId = id := by simpa using List.find?_some hfound
  rw [← hdependency]
  exact (hacc dependency hmem).active.mpr (by simpa using hactive)

/-- **A pass of a commit is safe.** -/
theorem CommitPass.dependencySafe {plan : CommitPlan} {st : CommitState ε}
    {flow : Loop.Flow (CommitState ε)} (h : CommitPass engines plan st flow)
    (hacc : ∀ hook ∈ st.hooks, hook.Accounted st.world.history)
    (hpast : Always Event.DependencySafe st.world.history) :
    Always Event.DependencySafe flow.state.world.history := by
  cases h with
  | skip => exact hpast
  | exhausted hquiet => exact hpast.adds hquiet.history fun _ _ ↦ False.elim
  | wave _ _ hmembers _ _ hcommitted =>
    -- the members of a wave name nobody
    refine hpast.adds hcommitted.world.history ?_
    rintro e past (⟨_, _, rfl⟩ | ⟨_, _, rfl⟩ | ⟨hook, hmem, hook', hmem', hsettles, _, rfl⟩)
    · trivial
    · trivial
    · intro _ id (hid : id ∈ hook'.spec.after)
      rw [hsettles.spec, (hmembers hook hmem).2.2.1] at hid
      exact absurd hid List.not_mem_nil
  | refused =>
    exact hpast.adds (markDomainCommitPreflightFailed_spec engines _ _ _ _).2.1.history
      fun e past he ↦ Event.dependencySafe_of_notActive he.2 past
  | @stale _ _ out _ _ _ hout =>
    refine hpast.cons fun (hactive : out.outcome = .active) ↦ ?_
    rw [hout.1] at hactive
    cases hactive
  | @dependency _ _ out _ _ _ _ hout =>
    refine hpast.cons fun (hactive : out.outcome = .active) ↦ ?_
    rw [hout] at hactive
    cases hactive
  | single _ _ _ hready hcommitted =>
    exact hcommitted.dependencySafe (dependenciesActive_lastOutcome hacc hready) hpast

/-- A queued hook that is ready. -/
theorem DrainPass.dependencySafe {runtime : RuntimeId} {hook : Hook} {drained : Drained}
    {w w' : World ε} (h : DrainPass engines runtime hook w drained w')
    (hready : DrainReady engines runtime hook w) (hpast : Always Event.DependencySafe w.history) :
    Always Event.DependencySafe w'.history := by
  have hpreparing : ∀ (e : Event) past, e.preparing → e.DependencySafe past :=
    fun _ past he ↦ Event.dependencySafe_of_preparing he past
  cases h with
  | waits _ _ _ hquiet =>
    exact hpast.adds hquiet.history fun e past he ↦ hpreparing e past he.preparing
  | fails _ hquiet => exact hpast.adds hquiet.history fun e past he ↦ hpreparing e past he.preparing
  | commits hprepared htouched hbefore hcommitted hafter =>
    rw [DrainReady, hprepared] at hready
    have hpast₁ := hpast.adds hbefore.history fun e past he ↦ hpreparing e past he.preparing
    have hone := hcommitted.dependencySafe (fun id hid ↦ hready rfl id (htouched.spec ▸ hid)) hpast₁
    exact hone.adds hafter.history fun e past he ↦ hpreparing e past he.preparing

theorem drainLoop_dependencySafe {runtime : RuntimeId} {ownerId : Id} {hooks : List Hook}
    {ledger : Ledger} {w : World ε} (hready : DrainLoopReady engines runtime ownerId hooks ledger w)
    (hpast : Always Event.DependencySafe w.history) :
    Always Event.DependencySafe (drainLoop engines runtime ownerId hooks ledger w).2.2.history := by
  induction hooks generalizing ledger w with
  | nil => exact hpast
  | cons hook rest ih =>
    exact ih hready.2
      ((drainOne_pass engines runtime ownerId hook ledger w).dependencySafe hready.1 hpast)

/-- **Dependency safety.**  In a run whose drains are about to commit only hooks with active
dependencies, a hook becomes active only when every hook it names in `commit_after` is, on every
path. -/
theorem dependencySafe_run (engines : EngineRef → Engine ε) (stripCode : Ptr → Ptr) {s : System ε}
    (hstart : s.Initial) (ops : List (Op ε))
    (hready : s.Meets engines stripCode (System.DrainsReady engines) ops) :
    Always Event.DependencySafe (s.run engines stripCode ops).world.history := by
  refine System.sound_world_invariant (I := fun w ↦ Always Event.DependencySafe w.history)
    (System.DrainsReady engines) (fun w w' hquiet h ↦ h.adds hquiet.history fun e past he ↦
      Event.dependencySafe_of_preparing he past)
    (fun plan st flow hacc hpass h ↦ hpass.dependencySafe hacc h) ?_ hstart ?_ hready
  · intro s runtime status results ledger runtime' w' _ hdrains hcall hI
    rcases drainPending_cases engines runtime (s.runtimes runtime) s.world with
      ⟨_, _, heq, hworld⟩ | ⟨w₁, _, _, _, _, _, heq, hran⟩
    · cases hcall.symm.trans heq
      rw [hworld.history_eq]
      exact hI
    · cases hcall.symm.trans heq
      rw [hran.after.history_eq]
      have hbefore := hran.before.history_eq
      rw [hran.start] at hbefore ⊢
      exact drainLoop_dependencySafe hdrains (by rwa [hbefore])
  · rw [hstart.history]
    trivial

/-! ## A dependency that nobody looks at -/

/-- The first hook's commit succeeds as `works` says, and the second hook's target only appears when
`host` is true. -/
def twoTargets (works : Bool) : EngineRef → Engine Bool := fun _ ↦ .scripted
  (fun host spec ↦ if spec.replacement = 2 ∧ !host then .notApplicable else .ok)
  fun _ spec ↦ if spec.replacement = 1 ∧ !works then .none else .complete

/-- The second hook waits for its target and for the first hook, which has the identifier `2`.  When
the plan is gone the target appears, and the queue is drained. -/
def waitForFirst : List (Op Bool) :=
  [.createPlan 0 0, .addHook 0 (.atAddress "first" 0x1000 1),
    .addHook 0 { HookSpec.atAddress "second" 0x2000 2 with
      availability := .deferUntilAvailable, commitAfter := some [some 2] },
    .analyze 0, .prepare 0, .commit 0, .releasePlan 0,
    .outside fun env ↦ { env with host := true }, .drain 0]

theorem dependencySafe_run_first_works :
    Always Event.DependencySafe
      ((System.fresh false fun _ ↦ 0).run (twoTargets true) id waitForFirst).world.history :=
  dependencySafe_run (twoTargets true) id (System.fresh_initial false fun _ ↦ 0)
    waitForFirst (by decide +kernel)

/-- The second hook becomes active although the first has failed. -/
theorem drain_ignores_dependencies :
    ¬ Always Event.DependencySafe
      ((System.fresh false fun _ ↦ 0).run (twoTargets false) id waitForFirst).world.history := by
  decide +kernel

end HookKit
