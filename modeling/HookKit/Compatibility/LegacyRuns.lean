import HookKit.Compatibility.LegacyFacade
import HookKit.Plan.SystemSteps

/-!
# A legacy call is a run

The header of `HKLegacyFacade.c` promises that one legacy call is one lifecycle of a runtime and a
plan, so that there is no second state machine.  Here the promise is a refinement: what a legacy
call does to the process is what a sequence of public calls does, from the same process and with
the runtime the call has made.

* `installing`, `lifecycle` — the public calls.
* `applySpecs_run`, `applyPlan_run` — the batched call and the single one.
* `legacy_runs` — both.
-/

set_option autoImplicit false

namespace HookKit.Legacy

open Backends

variable {ε : Type}

/-! ## The public calls -/

/-- A plan is made, filled with the requests, analyzed, prepared and committed. -/
def installing (slot : Nat) (self : RuntimeId) (specs : List HookSpec) : List (Op ε) :=
  .createPlan slot self ::
    (specs.map (Op.addHook slot) ++ [.analyze slot, .prepare slot, .commit slot])

/-- Plan and runtime are released. -/
def releasing (slot : Nat) (self : RuntimeId) : List (Op ε) :=
  [.releasePlan slot, .releaseRuntime self]

def lifecycle (slot : Nat) (self : RuntimeId) (specs : List HookSpec) : List (Op ε) :=
  installing slot self specs ++ releasing slot self

/-- The request as it is added, if it gets that far. -/
def routed (host : Host ε) (backendIds : Option Text) (spec : HookSpec) : Option HookSpec :=
  match routeFunctionSpec host.dladdr spec backendIds with
  | (.ok, routed) => some routed
  | _ => none

/-! ## The process in the middle of a call -/

/-- The process `s` with the runtime and the plan of a legacy call in it. -/
def during (s : System ε) (slot : Nat) (self : RuntimeId) (runtime : Runtime) (plan : Plan)
    (w : World ε) : System ε :=
  ((s.setRuntime self runtime).setPlan slot (some plan)).setWorld w

variable (engines : EngineRef → Engine ε) (stripCode : Ptr → Ptr) {s : System ε} {slot : Nat}
  {self : RuntimeId} {runtime : Runtime} {plan : Plan} {w : World ε}

theorem during_onPlan (f : Plan → System ε) :
    (during s slot self runtime plan w).onPlan slot f = f plan := by
  simp [during, System.onPlan, System.setWorld, System.setPlan]

theorem during_setPlan (plan' : Plan) (w' : World ε) :
    ((during s slot self runtime plan w).setPlan slot (some plan')).setWorld w' =
      during s slot self runtime plan' w' := by
  simp [during, System.setWorld, System.setPlan, System.setRuntime]

theorem during_runtimes : (during s slot self runtime plan w).runtimes self = runtime := by
  simp [during, System.setWorld, System.setPlan, System.setRuntime]

theorem during_createPlan (hslot : s.plans slot = none) (runtime : Runtime) {w w' : World ε}
    (hcreate : createPlan self w = (.ok plan, w')) :
    ((s.setRuntime self runtime).setWorld w).step engines stripCode (.createPlan slot self) =
      during s slot self runtime plan w' := by
  have hslot' : ((s.setRuntime self runtime).setWorld w).plans slot = none := hslot
  have hcreate' : createPlan self ((s.setRuntime self runtime).setWorld w).world =
      (.ok plan, w') := hcreate
  rw [System.step, hslot']
  dsimp only
  rw [hcreate']
  rfl

theorem during_createPlan_error (hslot : s.plans slot = none) (runtime : Runtime) {w w' : World ε}
    {status : Status} (hcreate : createPlan self w = (.error status, w')) :
    ((s.setRuntime self runtime).setWorld w).step engines stripCode (.createPlan slot self) =
      (s.setRuntime self runtime).setWorld w' := by
  have hslot' : ((s.setRuntime self runtime).setWorld w).plans slot = none := hslot
  have hcreate' : createPlan self ((s.setRuntime self runtime).setWorld w).world =
      (.error status, w') := hcreate
  rw [System.step, hslot']
  dsimp only
  rw [hcreate']
  rfl

theorem during_addHook (spec : HookSpec) :
    (during s slot self runtime plan w).step engines stripCode (.addHook slot spec) =
      during s slot self runtime (addHook stripCode plan spec w).2.1
        (addHook stripCode plan spec w).2.2 := by
  rw [System.step, during_onPlan]
  exact during_setPlan _ _

theorem during_analyze (hself : plan.runtime = self) :
    (during s slot self runtime plan w).step engines stripCode (.analyze slot) =
      during s slot self runtime (analyzePlan engines runtime plan w).2.1
        (analyzePlan engines runtime plan w).2.2 := by
  rw [System.step, during_onPlan, hself, during_runtimes]
  exact during_setPlan _ _

theorem during_prepare :
    (during s slot self runtime plan w).step engines stripCode (.prepare slot) =
      during s slot self runtime (preparePlan engines plan w).2.1
        (preparePlan engines plan w).2.2 := by
  rw [System.step, during_onPlan]
  exact during_setPlan _ _

theorem during_commit (hself : plan.runtime = self) :
    (during s slot self runtime plan w).step engines stripCode (.commit slot) =
      during s slot self (commitPlan engines runtime plan w).2.2.1
        (commitPlan engines runtime plan w).2.1 (commitPlan engines runtime plan w).2.2.2 := by
  rw [System.step, during_onPlan, hself, during_runtimes]
  simp [during, System.setWorld, System.setPlan, System.setRuntime]

theorem during_release (hself : plan.runtime = self) :
    ((during s slot self runtime plan w).run engines stripCode (releasing slot self)).world =
      releaseBoth engines runtime plan w := by
  rw [releasing, System.run, List.foldl_cons, List.foldl_cons, List.foldl_nil, System.step,
    System.step, during_onPlan, hself, during_runtimes]
  simp [during, System.setWorld, System.setPlan, System.setRuntime, releaseBoth]

/-! ## What the plan of a call is -/

theorem addHook_runtime (plan : Plan) (spec : HookSpec) (w : World ε) :
    (addHook stripCode plan spec w).2.1.runtime = plan.runtime := by
  rw [addHook]
  split
  · rfl
  split
  · rfl
  split
  · rfl
  split
  · rfl
  split
  · rfl
  split
  · rfl
  split
  · rfl
  dsimp only
  split <;> rfl

theorem addHook_draft (spec : HookSpec) (hdraft : plan.state = .draft) :
    (addHook stripCode plan spec w).2.1.state = .draft := by
  rcases (addHook_spec stripCode plan spec w).2 with h | ⟨-, h, -⟩
  · rw [h]
    exact hdraft
  · exact h

theorem analyzePlan_runtime : (analyzePlan engines runtime plan w).2.1.runtime = plan.runtime := by
  rcases (analyzePlan_spec engines runtime plan w).2 with h | ⟨-, -, h, -⟩
  · rw [h]
  · exact h

theorem preparePlan_runtime : (preparePlan engines plan w).2.1.runtime = plan.runtime := by
  obtain ⟨-, hooks, state, h, -⟩ := preparePlan_spec engines plan w
  rw [h]

theorem commitPlan_runtime :
    (commitPlan engines runtime plan w).2.1.runtime = plan.runtime := by
  rcases commitPlan_cases engines runtime plan w with
    ⟨_, _, _, h, -⟩ | ⟨_, _, _, _, _, _, h, hran⟩ <;> rw [h]
  obtain ⟨state, hplan, -⟩ := hran.planAfter
  rw [hplan]

/-- A draft whose analysis does not go through is still a draft. -/
theorem analyzePlan_refused (hdraft : plan.state = .draft)
    (hstatus : (analyzePlan engines runtime plan w).1 ≠ .ok) :
    (analyzePlan engines runtime plan w).2.1.state = .draft := by
  revert hstatus
  rw [analyzePlan, if_neg (not_not.mpr hdraft)]
  split
  · exact fun _ ↦ hdraft
  dsimp only
  split
  · exact fun _ ↦ hdraft
  · exact fun hstatus ↦ absurd rfl hstatus

/-- A plan whose preparation does not go through is in the state it was in. -/
theorem preparePlan_state (hstatus : (preparePlan engines plan w).1 ≠ .ok) :
    (preparePlan engines plan w).2.1.state = plan.state := by
  revert hstatus
  rw [preparePlan]
  split
  · exact fun _ ↦ rfl
  split
  · exact fun _ ↦ rfl
  split
  · exact fun _ ↦ rfl
  split
  · exact fun _ ↦ rfl
  · exact fun hstatus ↦ absurd rfl hstatus

/-- An analyzed plan: a commit that is refused leaves everything alone. -/
theorem commitPlan_refused (h : plan.state ≠ .prepared ∧ plan.state ≠ .partly) (runtime : Runtime)
    (w : World ε) : commitPlan engines runtime plan w = (.invalidState, plan, runtime, w) := by
  rw [commitPlan, if_pos h]

theorem analyzePlan_state (hstatus : (analyzePlan engines runtime plan w).1 = .ok) :
    (analyzePlan engines runtime plan w).2.1.state = .analyzed := by
  revert hstatus
  rw [analyzePlan]
  split
  · rintro ⟨⟩
  split
  · rintro ⟨⟩
  dsimp only
  split
  · rintro ⟨⟩
  · exact fun _ ↦ rfl

/-! ## The steps of a batch -/

variable (host : Host ε) (backendIds : Option Text)

theorem addSpecs_some {op : LegacyOp} {spec : HookSpec}
    (h : routed host backendIds op.spec = some spec) (rest : List LegacyOp) (plan : Plan)
    (w : World ε) :
    addSpecs stripCode host backendIds (op :: rest) plan w =
      (.ofAdd (addHook stripCode plan spec w).1 ::
        (addSpecs stripCode host backendIds rest (addHook stripCode plan spec w).2.1
          (addHook stripCode plan spec w).2.2).1,
        (addSpecs stripCode host backendIds rest (addHook stripCode plan spec w).2.1
          (addHook stripCode plan spec w).2.2).2) := by
  rw [routed] at h
  split at h
  · rename_i heq
    cases h
    rw [addSpecs, heq]
  · cases h

theorem addSpecs_none {op : LegacyOp} (h : routed host backendIds op.spec = none)
    (rest : List LegacyOp) (plan : Plan) (w : World ε) :
    ∃ status, status ≠ .ok ∧ addSpecs stripCode host backendIds (op :: rest) plan w =
      (⟨status, none⟩ :: (addSpecs stripCode host backendIds rest plan w).1,
        (addSpecs stripCode host backendIds rest plan w).2) := by
  rw [routed] at h
  rw [addSpecs]
  split at h
  · cases h
  · rename_i hne
    split
    · rename_i heq
      exact absurd heq (hne _)
    · rename_i status spec hne' heq
      refine ⟨status, ?_, rfl⟩
      rintro rfl
      exact hne' rfl

theorem addSpecs_run (ops : List LegacyOp) (hself : plan.runtime = self)
    (hdraft : plan.state = .draft) :
    (during s slot self runtime plan w).run engines stripCode
        ((ops.filterMap fun op ↦ routed host backendIds op.spec).map (Op.addHook slot)) =
      during s slot self runtime (addSpecs stripCode host backendIds ops plan w).2.1
        (addSpecs stripCode host backendIds ops plan w).2.2 ∧
      (addSpecs stripCode host backendIds ops plan w).2.1.runtime = self ∧
      (addSpecs stripCode host backendIds ops plan w).2.1.state = .draft := by
  induction ops generalizing plan w with
  | nil => exact ⟨rfl, hself, hdraft⟩
  | cons op rest ih =>
    rw [List.filterMap_cons]
    cases hrouted : routed host backendIds op.spec with
    | none =>
      obtain ⟨status, -, heq⟩ := addSpecs_none stripCode host backendIds hrouted rest plan w
      rw [heq]
      exact ih hself hdraft
    | some spec =>
      obtain ⟨hrun, hrest⟩ := @ih (addHook stripCode plan spec w).2.1 (addHook stripCode plan spec
        w).2.2 ((addHook_runtime stripCode plan spec w).trans hself)
        (addHook_draft stripCode spec hdraft)
      rw [addSpecs_some stripCode host backendIds hrouted]
      refine ⟨?_, hrest⟩
      rw [List.map_cons, System.run, List.foldl_cons, during_addHook]
      exact hrun

/-- Once the analysis or the preparation fails, the calls that are left do nothing. -/
theorem installSpecs_eq (ops : List LegacyOp) (added : List Added) (cells : Cells)
    (hdraft : plan.state = .draft) :
    (installSpecs engines runtime ops added plan cells w).2 =
      (commitPlan engines runtime
        (preparePlan engines (analyzePlan engines runtime plan w).2.1
          (analyzePlan engines runtime plan w).2.2).2.1
        (preparePlan engines (analyzePlan engines runtime plan w).2.1
          (analyzePlan engines runtime plan w).2.2).2.2).2 := by
  have hrefused₁ := @analyzePlan_refused _ engines runtime plan w hdraft
  have hanalyzed₁ := @analyzePlan_state _ engines runtime plan w
  rw [installSpecs]
  generalize analyzePlan engines runtime plan w = analyzed at hrefused₁ hanalyzed₁ ⊢
  obtain ⟨status₁, plan₁, w₁⟩ := analyzed
  dsimp only at hrefused₁ hanalyzed₁ ⊢
  by_cases hok₁ : status₁ = .ok
  · subst hok₁
    have hstate₂ := @preparePlan_state _ engines plan₁ w₁
    dsimp only
    generalize preparePlan engines plan₁ w₁ = prepared at hstate₂ ⊢
    obtain ⟨status₂, plan₂, w₂⟩ := prepared
    dsimp only at hstate₂ ⊢
    by_cases hok₂ : status₂ = .ok
    · subst hok₂
      rfl
    · have hstate : plan₂.state = .analyzed := (hstate₂ hok₂).trans (hanalyzed₁ rfl)
      rw [commitPlan_refused engines (by rw [hstate]; decide)]
      split
      · rename_i heq
        cases heq
        exact absurd rfl hok₂
      · rename_i heq
        cases heq
        rfl
  · have hdraft₁ := hrefused₁ hok₁
    rw [preparePlan, if_pos (by rw [hdraft₁]; decide),
      commitPlan_refused engines (by rw [hdraft₁]; decide)]
    split
    · rename_i heq
      cases heq
      exact absurd rfl hok₁
    · rename_i heq
      cases heq
      rfl

theorem installSpecs_run (ops : List LegacyOp) (added : List Added) (cells : Cells)
    (hself : plan.runtime = self) (hdraft : plan.state = .draft) :
    (during s slot self runtime plan w).run engines stripCode
        [.analyze slot, .prepare slot, .commit slot] =
      during s slot self (installSpecs engines runtime ops added plan cells w).2.2.1
        (installSpecs engines runtime ops added plan cells w).2.1
        (installSpecs engines runtime ops added plan cells w).2.2.2 ∧
      (installSpecs engines runtime ops added plan cells w).2.1.runtime = self := by
  have hself₁ := (@analyzePlan_runtime _ engines runtime plan w).trans hself
  have hself₂ := (@preparePlan_runtime _ engines (analyzePlan engines runtime plan w).2.1
    (analyzePlan engines runtime plan w).2.2).trans hself₁
  rw [System.run, List.foldl_cons, during_analyze engines stripCode hself, List.foldl_cons,
    during_prepare, List.foldl_cons, List.foldl_nil, during_commit engines stripCode hself₂,
    installSpecs_eq engines ops added cells hdraft]
  exact ⟨rfl, (commitPlan_runtime engines).trans hself₂⟩

/-! ## The calls -/

theorem createRuntime_pending {w' : World ε}
    (h : createRuntime host self backendIds w = (some runtime, w')) : runtime.pending = [] := by
  rw [createRuntime] at h
  split at h
  · cases h
  dsimp only at h
  split at h
  · cases h
  split at h
  · cases h
  · cases h
    rfl

theorem createPlan_runtime {w' : World ε} (h : createPlan self w = (.ok plan, w')) :
    plan.runtime = self ∧ plan.state = .draft ∧ plan.hooks = [] := by
  rw [createPlan] at h
  split at h
  · cases h
  · cases h
    exact ⟨rfl, rfl, rfl⟩

/-- Without a plan in its slot, the calls on it do nothing. -/
theorem empty_run {t : System ε} (hslot : t.plans slot = none)
    (hpending : (t.runtimes self).pending = []) (specs : List HookSpec) :
    (t.run engines stripCode (specs.map (Op.addHook slot) ++
      ([.analyze slot, .prepare slot, .commit slot] ++ releasing slot self))).world = t.world := by
  induction specs with
  | nil =>
    simp [System.run, System.step, System.onPlan, hslot, releasing, freePendingHooks, hpending,
      System.setWorld, System.setRuntime]
  | cons spec rest ih =>
    rw [List.map_cons, List.cons_append, System.run, List.foldl_cons, System.step, System.onPlan,
      hslot]
    exact ih

/-- **A batch is a run.**  Once the batch has its runtime, what it does to the process is what the
lifecycle of its requests does. -/
theorem applySpecs_run (hslot : s.plans slot = none) {ops : List LegacyOp} (hops : ops ≠ [])
    {w₀ w₁ : World ε} (halloc : s.world.alloc = (true, w₀))
    (hcreate : createRuntime host self backendIds w₀ = (some runtime, w₁)) (cells : Cells) :
    (applySpecs engines stripCode host self backendIds ops cells s.world).2.2.2 =
      (((s.setRuntime self runtime).setWorld w₁).run engines stripCode
        (lifecycle slot self (ops.filterMap fun op ↦ routed host backendIds op.spec))).world := by
  rw [applySpecs, if_neg hops, halloc]
  dsimp only
  rw [hcreate, lifecycle, installing, List.cons_append, System.run, List.foldl_cons,
    List.append_assoc]
  dsimp only
  cases hcreated : createPlan self w₁ with
  | mk created w₂ =>
    cases created with
    | error status =>
      rw [during_createPlan_error engines stripCode hslot runtime hcreated]
      have hpending : (((s.setRuntime self runtime).setWorld w₂).runtimes self).pending = [] := by
        simp [System.setWorld, System.setRuntime, createRuntime_pending host backendIds hcreate]
      exact (@empty_run _ engines stripCode slot self ((s.setRuntime self runtime).setWorld w₂)
        hslot hpending (ops.filterMap fun op ↦ routed host backendIds op.spec)).symm
    | ok plan =>
      obtain ⟨hself, hdraft, -⟩ := createPlan_runtime hcreated
      obtain ⟨hadded, hself₁, hdraft₁⟩ := @addSpecs_run _ engines stripCode s slot self runtime plan
        w₂ host backendIds ops hself hdraft
      rw [during_createPlan engines stripCode hslot runtime hcreated]
      dsimp only
      rw [← System.run, System.run_append, hadded]
      generalize addSpecs stripCode host backendIds ops plan w₂ = added at hself₁ hdraft₁ ⊢
      obtain ⟨added, plan₁, w₃⟩ := added
      obtain ⟨hinstalled, hself₂⟩ := @installSpecs_run _ engines stripCode s slot self runtime plan₁
        w₃ ops added cells hself₁ hdraft₁
      dsimp only
      rw [System.run_append, hinstalled, during_release engines stripCode hself₂]

/-! ## Refused requests -/

theorem copyChildren_error {copy : ImageSelector → Env ε → Except Status ImageSelector × Env ε}
    (hcopy : ∀ child env status, (copy child env).1 = .error status → status ≠ .ok)
    (children : List (Option ImageSelector)) (env : Env ε) {status : Status}
    (h : (copyChildren copy children env).1 = .error status) : status ≠ .ok := by
  induction children generalizing env with
  | nil => cases h
  | cons child rest ih =>
    cases child with
    | none =>
      cases h
      decide
    | some child =>
      have hchild := hcopy child env
      rw [copyChildren] at h
      split at h <;> rename_i heq <;> rw [heq] at hchild
      · cases h
        exact hchild _ rfl
      · split at h
        · rename_i heq'
          cases h
          exact ih _ (congrArg Prod.fst heq')
        · cases h

theorem copySelectorOwned_error (levels : Nat) (src : ImageSelector) (env : Env ε) {status : Status}
    (h : (copySelectorOwned levels src env).1 = .error status) : status ≠ .ok := by
  induction levels generalizing src env status with
  | zero =>
    cases h
    decide
  | succ levels ih =>
    rw [copySelectorOwned] at h
    split at h
    · cases h
      decide
    split at h
    · cases h
      decide
    split at h
    · split at h
      · cases h
        decide
      · cases h
      · split at h
        · cases h
          decide
        split at h
        · rename_i heq
          cases h
          exact copyChildren_error (fun child env status ↦ ih child env) _ _
            (congrArg Prod.fst heq)
        · cases h
    · cases h

theorem copyTarget_error (target : Target) (env : Env ε) {status : Status}
    (h : (copyTarget target env).1 = .error status) : status ≠ .ok := by
  have hselector : ∀ {src : ImageSelector} {env env' : Env ε} {status : Status},
      copySelector src env = (.error status, env') → status ≠ .ok := fun heq ↦
    copySelectorOwned_error _ _ _ (congrArg Prod.fst heq)
  unfold copyTarget at h
  split at h
  · split at h
    · cases h
      decide
    split at h
    · rename_i heq
      cases h
      exact hselector heq
    split at h
    · rename_i heq
      cases h
      exact hselector heq
    · cases h
  · split at h
    · rename_i heq
      cases h
      exact hselector heq
    split at h
    · cases h
      decide
    · cases h
  · split at h
    · cases h
      decide
    split at h
    · cases h
      decide
    · cases h
  · split at h
    · rename_i heq
      cases h
      split at heq
      · exact hselector heq
      · cases heq
    split at h
    · cases h
      decide
    split at h
    · cases h
      decide
    split at h
    · cases h
      decide
    · cases h
  · cases h
    decide

theorem admissible_error {spec : HookSpec} {status : Status}
    (h : admissible plan spec = .error status) : status ≠ .ok := by
  revert h
  rw [admissible]
  repeat' split
  all_goals
    intro h
    cases h
  all_goals decide

/-- A request that is refused is refused with a status that says so. -/
theorem addHook_error {spec : HookSpec} {status : Status}
    (h : (addHook stripCode plan spec w).1 = .error status) : status ≠ .ok := by
  rw [addHook] at h
  split at h
  · rename_i heq
    cases h
    exact admissible_error heq
  split at h
  · cases h
    decide
  split at h
  · cases h
    decide
  split at h
  · rename_i heq
    cases h
    exact copyTarget_error _ _ (congrArg Prod.fst heq)
  split at h
  · cases h
    decide
  split at h
  · cases h
    decide
  split at h
  · cases h
    decide
  dsimp only at h
  split at h
  · cases h
    decide
  · cases h

/-! ## A single call -/

/-- The part of the single call behind `hk_plan_add_hook`. -/
theorem applyAdmitted_run (hself : plan.runtime = self) (hookId : Id) (original : Option Ptr)
    (cells : Cells) :
    ∃ calls, calls <+: [.analyze slot, .prepare slot, .commit slot] ∧
      (applyAdmitted engines runtime plan hookId original cells w).2.2 =
        ((during s slot self runtime plan w).run engines stripCode
          (calls ++ releasing slot self)).world ∧
      ((applyAdmitted engines runtime plan hookId original cells w).1 = .ok →
        calls = [.analyze slot, .prepare slot, .commit slot]) := by
  have hself₁ := (@analyzePlan_runtime _ engines runtime plan w).trans hself
  have hanalyze := @during_analyze _ engines stripCode s slot self runtime plan w hself
  rw [applyAdmitted]
  generalize analyzePlan engines runtime plan w = analyzed at hself₁ hanalyze ⊢
  obtain ⟨status₁, plan₁, w₁⟩ := analyzed
  dsimp only at hself₁ hanalyze
  -- the calls up to each place the source can stop at
  have hstop₁ : ((during s slot self runtime plan w).run engines stripCode
      ([.analyze slot] ++ releasing slot self)).world = releaseBoth engines runtime plan₁ w₁ := by
    rw [List.singleton_append, System.run, List.foldl_cons, hanalyze]
    exact during_release engines stripCode hself₁
  split
  · rename_i heq
    cases heq
    have hself₂ := (@preparePlan_runtime _ engines plan₁ w₁).trans hself₁
    have hprepare := @during_prepare _ engines stripCode s slot self runtime plan₁ w₁
    generalize preparePlan engines plan₁ w₁ = prepared at hself₂ hprepare ⊢
    obtain ⟨status₂, plan₂, w₂⟩ := prepared
    dsimp only at hself₂ hprepare
    have hstop₂ : ((during s slot self runtime plan w).run engines stripCode
        ([.analyze slot, .prepare slot] ++ releasing slot self)).world =
          releaseBoth engines runtime plan₂ w₂ := by
      rw [List.cons_append, List.singleton_append, System.run, List.foldl_cons, hanalyze,
        List.foldl_cons, hprepare]
      exact during_release engines stripCode hself₂
    split
    · rename_i heq
      cases heq
      dsimp only
      split
      · exact ⟨_, ⟨[.commit slot], rfl⟩, hstop₂.symm, by rintro ⟨⟩⟩
      · refine ⟨_, List.prefix_rfl, ?_, fun _ ↦ rfl⟩
        rw [List.cons_append, List.cons_append, List.singleton_append, System.run, List.foldl_cons,
          hanalyze, List.foldl_cons, hprepare, List.foldl_cons,
          during_commit engines stripCode hself₂]
        exact (during_release engines stripCode ((commitPlan_runtime engines).trans hself₂)).symm
    · rename_i heq
      cases heq
      exact ⟨_, ⟨[.commit slot], rfl⟩, hstop₂.symm, by rintro ⟨⟩⟩
  · rename_i heq
    cases heq
    exact ⟨_, ⟨[.prepare slot, .commit slot], rfl⟩, hstop₁.symm, by rintro ⟨⟩⟩

theorem mapStatus_ok {status : Status} (h : mapStatus status = .ok) : status = .ok := by
  cases status <;> first | rfl | cases h

/-- **A single call is a run** as well: of a first part of the lifecycle, and of all of it when the
call reports success. -/
theorem applyPlan_run (hslot : s.plans slot = none) {spec : HookSpec} {original : Option Ptr}
    {w₁ : World ε} (hcreate : createRuntime host self backendIds s.world = (some runtime, w₁))
    (cells : Cells) :
    ∃ calls, calls <+: installing slot self (routed host backendIds spec).toList ∧
      (applyPlan engines stripCode host self backendIds spec original cells s.world).2.2 =
        (((s.setRuntime self runtime).setWorld w₁).run engines stripCode
          (calls ++ releasing slot self)).world ∧
      ((applyPlan engines stripCode host self backendIds spec original cells s.world).1 = .ok →
        calls = installing slot self (routed host backendIds spec).toList) := by
  have hone : ∀ calls : List (Op ε), ((s.setRuntime self runtime).setWorld w₁).run engines stripCode
      (.createPlan slot self :: calls) = (((s.setRuntime self runtime).setWorld w₁).step engines
        stripCode (.createPlan slot self)).run engines stripCode calls := fun _ ↦ rfl
  rw [applyPlan, hcreate]
  dsimp only
  cases hcreated : createPlan self w₁ with
  | mk created w₂ =>
    cases created with
    | error status =>
      have hstart := during_createPlan_error engines stripCode hslot runtime hcreated
      refine ⟨[.createPlan slot self], ⟨_, rfl⟩, ?_, by rintro ⟨⟩⟩
      rw [List.singleton_append, hone, hstart]
      simp [System.run, System.step, System.onPlan, hslot, releasing, System.setWorld,
        System.setRuntime]
    | ok plan =>
      obtain ⟨hself, -, -⟩ := createPlan_runtime hcreated
      have hstart := during_createPlan engines stripCode hslot runtime hcreated
      dsimp only
      rw [routed]
      cases hrouted : routeFunctionSpec host.dladdr spec backendIds with
      | mk status out =>
        by_cases hok : status = .ok
        · subst hok
          dsimp only [Option.toList_some]
          have hadd := @during_addHook _ engines stripCode s slot self runtime plan w₂ out
          have hself₁ := (addHook_runtime stripCode plan out w₂).trans hself
          have herror := @addHook_error _ stripCode plan w₂ out
          generalize addHook stripCode plan out w₂ = added at hadd hself₁ herror ⊢
          obtain ⟨added, plan₁, w₃⟩ := added
          cases added with
          | error status =>
            refine ⟨[.createPlan slot self, .addHook slot out], ⟨_, rfl⟩, ?_, fun hok ↦ ?_⟩
            · rw [List.cons_append, hone, hstart, List.singleton_append, System.run,
                List.foldl_cons, hadd]
              exact (during_release engines stripCode hself₁).symm
            · exact absurd (mapStatus_ok hok) (herror rfl)
          | ok hookId =>
            obtain ⟨calls, hprefix, hworld, hall⟩ := @applyAdmitted_run _ engines stripCode s slot
              self runtime plan₁ w₃ hself₁ hookId original (cells.store original 0)
            refine ⟨.createPlan slot self :: .addHook slot out :: calls, ?_, ?_, fun hok ↦ ?_⟩
            · exact List.cons_prefix_cons.mpr ⟨rfl, List.cons_prefix_cons.mpr ⟨rfl, hprefix⟩⟩
            · rw [List.cons_append, hone, hstart, List.cons_append, System.run, List.foldl_cons,
                hadd]
              exact hworld
            · rw [hall hok]
              rfl
        · have hstop : (((s.setRuntime self runtime).setWorld w₁).run engines stripCode
              ([.createPlan slot self] ++ releasing slot self)).world =
                releaseBoth engines runtime plan w₂ := by
            rw [List.singleton_append, hone, hstart]
            exact during_release engines stripCode hself
          cases status with
          | ok => exact absurd rfl hok
          | _ => exact ⟨[.createPlan slot self], ⟨_, rfl⟩, hstop.symm, by rintro ⟨⟩⟩

/-- A process with one engine and no name for any address. -/
def Host.plain : Host Unit where
  architecture := 0
  iosVersion := 0
  registerEngines := fun _ env ↦ ([⟨0, false⟩], env)
  dladdr := fun _ ↦ none

end HookKit.Legacy
