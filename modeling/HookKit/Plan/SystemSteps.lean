import HookKit.Lib.Apart
import HookKit.Plan.QueueSteps
import HookKit.Plan.System

/-!
# What one call does

* `System.Stepped` — the ways a call can change the process.
* `System.held` — the hooks of a plan or of a queue, and how a call changes them.
* `System.world_invariant` — the rule for statements about the process alone.
-/

set_option autoImplicit false

namespace HookKit

variable {ε : Type}

/-! ## Drafting and analysis -/

/-- A hook as it is added to a draft. -/
structure Hook.Blank (h : Hook) : Prop where
  preparedState : h.preparedState = 0
  installed : h.installed = none
  outcome : h.result.outcome = .unanalyzed

/-- Whether the router may choose an engine for a request. -/
def Capabilities.Serves (caps : Capabilities) (spec : HookSpec) : Prop :=
  eligibleMinimalFull caps spec.targetKind spec.requiredReach spec.originalRequirement
    (effectiveConstraints spec.constraints spec.continuationPolicy) = true

instance (caps : Capabilities) (spec : HookSpec) : Decidable (caps.Serves spec) :=
  inferInstanceAs (Decidable (_ = true))

/-- What analysis makes of a hook. -/
structure Hook.Analyzes (engines : EngineRef → Engine ε) (runtime : Runtime) (h h' : Hook) :
    Prop where
  hookId : h'.hookId = h.hookId
  spec : h'.spec = h.spec
  preparedState : h'.preparedState = h.preparedState
  installed : h'.installed = h.installed
  commitEffects : h'.result.observedCommitEffects = 0
  routed : h'.result.outcome = .noRoute ∧ h'.matchedEngine = none ∨
    h'.result.outcome = .analyzed ∧ ∃ r ∈ runtime.engines, h'.matchedEngine = some r.engine ∧
      (engines r.engine).describe.Serves h.spec

theorem Hook.Analyzes.outcome {engines : EngineRef → Engine ε} {runtime : Runtime} {h h' : Hook}
    (ha : h.Analyzes engines runtime h') :
    h'.result.outcome = .analyzed ∨ h'.result.outcome = .noRoute :=
  ha.routed.elim (fun h ↦ .inr h.1) fun h ↦ .inl h.1

theorem createPlan_spec (runtime : RuntimeId) (w : World ε) :
    w.Quiet (fun _ ↦ False) (createPlan runtime w).2 ∧
      ∀ plan, (createPlan runtime w).1 = .ok plan → plan.state = .draft ∧ plan.hooks = [] := by
  have halloc : w.Quiet (fun _ ↦ False) w.alloc.2 := World.quiet_alloc w
  rw [createPlan]
  generalize w.alloc = allocated at halloc ⊢
  obtain ⟨ok, w₁⟩ := allocated
  cases ok with
  | false => exact ⟨halloc, nofun⟩
  | true =>
    refine ⟨halloc.trans (World.quiet_freshId w₁), fun plan h ↦ ?_⟩
    cases h
    exact ⟨rfl, rfl⟩

theorem defineDomain_spec (plan : Plan) (spec : DomainSpec) (w : World ε) :
    w.Quiet (fun _ ↦ False) (defineDomain plan spec w).2.2 ∧
      ((defineDomain plan spec w).2.1 = plan ∨
        plan.state = .draft ∧ (defineDomain plan spec w).2.1.state = .draft ∧
          (defineDomain plan spec w).2.1.hooks = plan.hooks) := by
  rw [defineDomain]
  split
  · exact ⟨.refl w, .inl rfl⟩
  rename_i hdraft
  rw [not_not] at hdraft
  split
  · exact ⟨.refl w, .inl rfl⟩
  split
  · exact ⟨.refl w, .inl rfl⟩
  split
  · exact ⟨.refl w, .inl rfl⟩
  have hfirst : w.Quiet (fun _ ↦ False) w.alloc.2 := World.quiet_alloc w
  generalize w.alloc = first at hfirst ⊢
  obtain ⟨ok, w₁⟩ := first
  cases ok with
  | false => exact ⟨hfirst, .inl rfl⟩
  | true =>
    have hsecond : w.Quiet (fun _ ↦ False) w₁.alloc.2 := hfirst.trans (World.quiet_alloc w₁)
    dsimp only
    generalize w₁.alloc = second at hsecond ⊢
    obtain ⟨ok', w₂⟩ := second
    cases ok' with
    | false => exact ⟨hsecond, .inl rfl⟩
    | true =>
      have hquiet := hsecond.trans (World.quiet_freshId w₂)
      dsimp only
      generalize growArray plan.domains.length plan.domainCapacity w₂.freshId.2.env = grown
      obtain ⟨ok'', env⟩ := grown
      cases ok'' with
      | false => exact ⟨hquiet.setEnv env, .inl rfl⟩
      | true => exact ⟨hquiet.setEnv env, .inr ⟨hdraft, hdraft, rfl⟩⟩

theorem admissible_draft {plan : Plan} {spec : HookSpec} (h : admissible plan spec = .ok ()) :
    plan.state = .draft := by
  rw [admissible] at h
  split at h
  · cases h
  · rename_i hdraft
    exact not_not.mp hdraft

theorem addHook_spec (stripCode : Ptr → Ptr) (plan : Plan) (spec : HookSpec) (w : World ε) :
    w.Quiet (fun _ ↦ False) (addHook stripCode plan spec w).2.2 ∧
      ((addHook stripCode plan spec w).2.1 = plan ∨
        plan.state = .draft ∧ (addHook stripCode plan spec w).2.1.state = .draft ∧
          ∃ hook, (addHook stripCode plan spec w).2.1.hooks = plan.hooks ++ [hook] ∧ hook.Blank ∧
            w.nextId ≤ hook.hookId ∧ hook.hookId < (addHook stripCode plan spec w).2.2.nextId) := by
  rw [addHook]
  split
  · exact ⟨.refl w, .inl rfl⟩
  rename_i hadmissible
  have hdraft := admissible_draft hadmissible
  have hfirst : w.Quiet (fun _ ↦ False) w.alloc.2 := World.quiet_alloc w
  generalize w.alloc = first at hfirst ⊢
  obtain ⟨ok, w₁⟩ := first
  cases ok with
  | false => exact ⟨hfirst, .inl rfl⟩
  | true =>
  have hsecond : w.Quiet (fun _ ↦ False) w₁.alloc.2 := hfirst.trans (World.quiet_alloc w₁)
  dsimp only
  generalize w₁.alloc = second at hsecond ⊢
  obtain ⟨ok', w₂⟩ := second
  cases ok' with
  | false => exact ⟨hsecond, .inl rfl⟩
  | true =>
  dsimp only at hsecond ⊢
  split
  · exact ⟨hsecond.setEnv _, .inl rfl⟩
  split
  · exact ⟨hsecond.setEnv _, .inl rfl⟩
  split
  · exact ⟨hsecond.setEnv _, .inl rfl⟩
  split
  · exact ⟨hsecond.setEnv _, .inl rfl⟩
  rename_i env _
  have hquiet := (hsecond.setEnv env).trans (World.quiet_freshId (w₂.setEnv env))
  split
  · exact ⟨hquiet.setEnv _, .inl rfl⟩
  · exact ⟨hquiet.setEnv _, .inr ⟨hdraft, hdraft, _, rfl, ⟨rfl, rfl, rfl⟩, hsecond.nextId,
      Nat.lt_succ_self _⟩⟩

theorem analyzeCandidate_some {engines : EngineRef → Engine ε} {runtime : Runtime}
    {runtimeId : RuntimeId} {hook : Hook} {registration : Registration} {env env' : Env ε}
    {route : Route}
    (h : analyzeCandidate engines runtime runtimeId hook registration env = (some route, env')) :
    route.engine = registration.engine ∧
      (engines registration.engine).describe.Serves hook.spec := by
  rw [analyzeCandidate] at h
  dsimp only at h
  -- with or without a discovery, the same checks follow
  split at h
  all_goals
    split at h
    · cases h
    split at h
    · cases h
    split at h
    · cases h
    · rename_i hchecks
      simp only [Bool.or_eq_true, not_or, Bool.not_eq_true', Bool.not_eq_false] at hchecks
      cases h
      exact ⟨rfl, hchecks.1.1.1.1⟩

/-- The route that is found is the best one so far, or that of an engine that may be chosen. -/
theorem findRoute_some {engines : EngineRef → Engine ε} {runtime : Runtime} {runtimeId : RuntimeId}
    {hook : Hook} {registrations : List Registration} {best : Option Route} {env env' : Env ε}
    {route : Route}
    (h : findRoute engines runtime runtimeId hook registrations best env = (some route, env')) :
    best = some route ∨ ∃ r ∈ registrations, route.engine = r.engine ∧
      (engines r.engine).describe.Serves hook.spec := by
  induction registrations generalizing best env with
  | nil =>
    cases h
    exact .inl rfl
  | cons registration rest ih =>
    rw [findRoute] at h
    split at h
    · refine (ih h).imp_right fun ⟨r, hr, hserves⟩ ↦ ⟨r, List.mem_cons_of_mem _ hr, hserves⟩
    · rename_i candidate _ hcandidate
      obtain ⟨hengine, hserves⟩ := analyzeCandidate_some hcandidate
      rcases ih h with hbest | ⟨r, hr, hserves'⟩
      · split at hbest
        · cases hbest
          exact .inr ⟨registration, List.mem_cons_self, hengine, hserves⟩
        · exact .inl hbest
      · exact .inr ⟨r, List.mem_cons_of_mem _ hr, hserves'⟩

theorem analyzeOne_spec (engines : EngineRef → Engine ε) (runtime : Runtime)
    (runtimeId : RuntimeId) (planId : Id) (hook : Hook) (env : Env ε) :
    hook.Analyzes engines runtime (analyzeOne engines runtime runtimeId planId hook env).1 := by
  rw [analyzeOne]
  dsimp only
  split
  · rename_i route _ hfound
    refine ⟨rfl, rfl, rfl, rfl, rfl, .inr ⟨rfl, ?_⟩⟩
    rcases findRoute_some hfound with h | ⟨r, hr, hengine, hserves⟩
    · cases h
    · exact ⟨r, hr, congrArg some hengine, hserves⟩
  · exact ⟨rfl, rfl, rfl, rfl, rfl, .inl ⟨rfl, rfl⟩⟩

theorem analyzeHooks_spec (engines : EngineRef → Engine ε) (runtime : Runtime)
    (runtimeId : RuntimeId) (planId : Id) (hooks : List Hook) (env : Env ε) :
    List.Forall₂ (Hook.Analyzes engines runtime) hooks
      (analyzeHooks engines runtime runtimeId planId hooks env).1 := by
  induction hooks generalizing env with
  | nil => exact .nil
  | cons hook rest ih =>
    exact .cons (analyzeOne_spec engines runtime runtimeId planId hook env) (ih _)

theorem analyzePlan_spec (engines : EngineRef → Engine ε) (runtime : Runtime) (plan : Plan)
    (w : World ε) :
    w.Quiet (fun _ ↦ False) (analyzePlan engines runtime plan w).2.2 ∧
      ((analyzePlan engines runtime plan w).2.1 = plan ∨
        plan.state = .draft ∧
          ((analyzePlan engines runtime plan w).2.1.state = .draft ∨
            (analyzePlan engines runtime plan w).2.1.state = .analyzed) ∧
          (analyzePlan engines runtime plan w).2.1.runtime = plan.runtime ∧
          List.Forall₂ (Hook.Analyzes engines runtime) plan.hooks
            (analyzePlan engines runtime plan w).2.1.hooks) := by
  rw [analyzePlan]
  split
  · exact ⟨.refl w, .inl rfl⟩
  · rename_i hdraft
    rw [not_not] at hdraft
    have hfirst : w.Quiet (fun _ ↦ False)
        (if plan.hooks.length > 0 then w.alloc else (true, w)).2 := by
      split
      · exact World.quiet_alloc w
      · exact .refl w
    generalize (if plan.hooks.length > 0 then w.alloc else (true, w)) = first at hfirst ⊢
    obtain ⟨ok, w₁⟩ := first
    cases ok with
    | false => exact ⟨hfirst, .inl rfl⟩
    | true =>
      dsimp only at hfirst ⊢
      have hhooks := analyzeHooks_spec engines runtime plan.runtime plan.planId plan.hooks w₁.env
      generalize analyzeHooks engines runtime plan.runtime plan.planId plan.hooks w₁.env = analyzed
        at hhooks ⊢
      obtain ⟨hooks, env⟩ := analyzed
      dsimp only at hhooks ⊢
      have hreport := (hfirst.setEnv env).trans (createReport_quiet hooks.length (w₁.setEnv env))
      generalize createReport hooks.length (w₁.setEnv env) = report at hreport ⊢
      obtain ⟨ok', w₂⟩ := report
      cases ok' with
      | false => exact ⟨hreport, .inr ⟨hdraft, .inl hdraft, rfl, hhooks⟩⟩
      | true => exact ⟨hreport, .inr ⟨hdraft, .inr rfl, rfl, hhooks⟩⟩

namespace System

/-! ## Where the hooks are -/

/-- The places a hook can be in: the plan in a slot, and the pending queue of a runtime. -/
inductive Place where
  | slot (slot : Nat)
  | queue (runtime : RuntimeId)
deriving DecidableEq

/-- The hooks of the plan in a slot. -/
def planHooks (s : System ε) (slot : Nat) : List Hook := ((s.plans slot).map Plan.hooks).getD []

/-- The hooks in a place. -/
def held (s : System ε) : Place → List Hook
  | .slot slot => s.planHooks slot
  | .queue runtime => (s.runtimes runtime).pending

theorem planHooks_some {s : System ε} {slot : Nat} {plan : Plan} (h : s.plans slot = some plan) :
    s.planHooks slot = plan.hooks := by
  rw [planHooks, h]
  rfl

@[simp] theorem setWorld_world (s : System ε) (w : World ε) : (s.setWorld w).world = w := rfl
@[simp] theorem held_setWorld (s : System ε) (w : World ε) : (s.setWorld w).held = s.held := rfl

@[simp] theorem held_setPlan (s : System ε) (slot : Nat) (plan : Option Plan) :
    (s.setPlan slot plan).held =
      Function.update s.held (.slot slot) ((plan.map Plan.hooks).getD []) := by
  funext place
  by_cases hplace : place = .slot slot
  · subst hplace
    rw [Function.update_self, held, planHooks, setPlan]
    dsimp only
    rw [Function.update_self]
  · rw [Function.update_of_ne hplace]
    cases place with
    | queue runtime => rfl
    | slot n =>
      have hn : n ≠ slot := fun h ↦ hplace (by rw [h])
      rw [held, planHooks, setPlan]
      dsimp only
      rw [Function.update_of_ne hn]
      rfl

@[simp] theorem held_setRuntime (s : System ε) (id : RuntimeId) (runtime : Runtime) :
    (s.setRuntime id runtime).held = Function.update s.held (.queue id) runtime.pending := by
  funext place
  by_cases hplace : place = .queue id
  · subst hplace
    rw [Function.update_self, held, setRuntime]
    dsimp only
    rw [Function.update_self]
  · rw [Function.update_of_ne hplace]
    cases place with
    | slot n => rfl
    | queue n =>
      have hn : n ≠ id := fun h ↦ hplace (by rw [h])
      rw [held, setRuntime]
      dsimp only
      rw [Function.update_of_ne hn]
      rfl

theorem setPlan_self {s : System ε} {slot : Nat} {plan : Plan} (h : s.plans slot = some plan) :
    s.setPlan slot (some plan) = s := by
  rw [setPlan, ← h, Function.update_eq_self]

/-! ## The calls -/

/-- The ways a call can change the process. -/
inductive Stepped (engines : EngineRef → Engine ε) (s : System ε) : Op ε → System ε → Prop where
  /-- Nothing happens to any hook. -/
  | idle {op : Op ε} {w' : World ε} {runtimes' : RuntimeId → Runtime}
      (hquiet : s.world.Quiet (fun _ ↦ False) w')
      (hpending : ∀ id, (runtimes' id).pending = (s.runtimes id).pending) :
    Stepped engines s op ⟨w', runtimes', s.plans⟩
  /-- A draft is made, or gets one more hook. -/
  | drafted {op : Op ε} {slot : Nat} {plan' : Plan} {w' : World ε}
      (hbefore : ∀ plan, s.plans slot = some plan → plan.state = .draft)
      (hafter : plan'.state = .draft)
      (hhooks : plan'.hooks = s.planHooks slot ∨ ∃ hook,
        plan'.hooks = s.planHooks slot ++ [hook] ∧ hook.Blank ∧ s.world.nextId ≤ hook.hookId ∧
          hook.hookId < w'.nextId)
      (hquiet : s.world.Quiet (fun _ ↦ False) w') :
    Stepped engines s op ((s.setPlan slot (some plan')).setWorld w')
  /-- A draft is analyzed. -/
  | analyzed {slot : Nat} {plan plan' : Plan} {w' : World ε} (hplan : s.plans slot = some plan)
      (hbefore : plan.state = .draft) (hafter : plan'.state = .draft ∨ plan'.state = .analyzed)
      (hruntime : plan'.runtime = plan.runtime)
      (hhooks : List.Forall₂ (Hook.Analyzes engines (s.runtimes plan.runtime)) plan.hooks
        plan'.hooks)
      (hquiet : s.world.Quiet (fun _ ↦ False) w') :
    Stepped engines s (.analyze slot) ((s.setPlan slot (some plan')).setWorld w')
  | prepared {slot : Nat} {plan plan' : Plan} {w' : World ε} {status : Status}
      (hplan : s.plans slot = some plan)
      (hcall : preparePlan engines plan s.world = (status, plan', w')) :
    Stepped engines s (.prepare slot) ((s.setPlan slot (some plan')).setWorld w')
  | committed {slot : Nat} {plan plan' : Plan} {runtime' : Runtime} {w' : World ε} {status : Status}
      (hplan : s.plans slot = some plan)
      (hcall : commitPlan engines (s.runtimes plan.runtime) plan s.world =
        (status, plan', runtime', w')) :
    Stepped engines s (.commit slot)
      (((s.setPlan slot (some plan')).setRuntime plan.runtime runtime').setWorld w')
  | released {slot : Nat} {plan : Plan} {runtime' : Runtime} {w' : World ε}
      (hplan : s.plans slot = some plan)
      (hcall : HookKit.releasePlan engines (s.runtimes plan.runtime) plan s.world = (runtime', w'))
        :
    Stepped engines s (.releasePlan slot)
      (((s.setPlan slot none).setRuntime plan.runtime runtime').setWorld w')
  | drained {runtime : RuntimeId} {status : Status} {results : List HookResult} {ledger : Ledger}
      {runtime' : Runtime} {w' : World ε}
      (hcall : drainPending engines runtime (s.runtimes runtime) s.world =
        (status, results, ledger, runtime', w')) :
    Stepped engines s (.drain runtime) ((s.setRuntime runtime runtime').setWorld w')
  | freed {runtime : RuntimeId} {runtime' : Runtime} {w' : World ε}
      (hcall : freePendingHooks engines (s.runtimes runtime) s.world = (runtime', w')) :
    Stepped engines s (.releaseRuntime runtime) ((s.setRuntime runtime runtime').setWorld w')

variable {engines : EngineRef → Engine ε}

theorem Stepped.same (s : System ε) (op : Op ε) : Stepped engines s op s :=
  .idle (.refl _) fun _ ↦ rfl

/-- **The steps of a run.** -/
theorem step_stepped (engines : EngineRef → Engine ε) (stripCode : Ptr → Ptr) (s : System ε)
    (op : Op ε) : Stepped engines s op (s.step engines stripCode op) := by
  cases op with
  | createPlan slot runtime =>
    rw [step]
    split
    · exact .same s _
    · rename_i hslot
      obtain ⟨hquiet, hplan⟩ := createPlan_spec runtime s.world
      split
      · rename_i plan w heq
        rw [heq] at hquiet hplan
        obtain ⟨hdraft, hhooks⟩ := hplan plan rfl
        refine .drafted (fun plan h ↦ ?_) hdraft (.inl ?_) hquiet
        · rw [hslot] at h
          cases h
        · rw [hhooks, planHooks, hslot]
          rfl
      · rename_i heq
        rw [heq] at hquiet
        exact .idle hquiet fun _ ↦ rfl
  | defineDomain slot spec =>
    rw [step, onPlan]
    split
    · exact .same s _
    · rename_i plan hplan
      have hspec := defineDomain_spec plan spec s.world
      generalize HookKit.defineDomain plan spec s.world = called at hspec ⊢
      obtain ⟨result, plan', w'⟩ := called
      obtain ⟨hquiet, rfl | ⟨hbefore, hafter, hhooks⟩⟩ := hspec
      · dsimp only
        rw [setPlan_self hplan]
        exact .idle hquiet fun _ ↦ rfl
      · refine .drafted (fun before h ↦ ?_) hafter (.inl (hhooks.trans ?_)) hquiet
        · rw [hplan] at h
          cases h
          exact hbefore
        · rw [planHooks_some hplan]
  | addHook slot spec =>
    rw [step, onPlan]
    split
    · exact .same s _
    · rename_i plan hplan
      have hspec := addHook_spec stripCode plan spec s.world
      generalize HookKit.addHook stripCode plan spec s.world = called at hspec ⊢
      obtain ⟨result, plan', w'⟩ := called
      obtain ⟨hquiet, rfl | ⟨hbefore, hafter, hook, hhooks, hblank, hfresh⟩⟩ := hspec
      · dsimp only
        rw [setPlan_self hplan]
        exact .idle hquiet fun _ ↦ rfl
      · refine .drafted (fun before h ↦ ?_) hafter
          (.inr ⟨hook, hhooks.trans ?_, hblank, hfresh⟩) hquiet
        · rw [hplan] at h
          cases h
          exact hbefore
        · rw [planHooks_some hplan]
  | analyze slot =>
    rw [step, onPlan]
    split
    · exact .same s _
    · rename_i plan hplan
      have hspec := analyzePlan_spec engines (s.runtimes plan.runtime) plan s.world
      generalize analyzePlan engines (s.runtimes plan.runtime) plan s.world = called at hspec ⊢
      obtain ⟨status, plan', w'⟩ := called
      obtain ⟨hquiet, rfl | ⟨hbefore, hafter, hruntime, hhooks⟩⟩ := hspec
      · dsimp only
        rw [setPlan_self hplan]
        exact .idle hquiet fun _ ↦ rfl
      · exact .analyzed hplan hbefore hafter hruntime hhooks hquiet
  | prepare slot =>
    rw [step, onPlan]
    split
    · exact .same s _
    · rename_i plan hplan
      dsimp only
      generalize hcall : preparePlan engines plan s.world = called
      obtain ⟨status, plan', w'⟩ := called
      exact .prepared hplan hcall
  | commit slot =>
    rw [step, onPlan]
    split
    · exact .same s _
    · rename_i plan hplan
      dsimp only
      generalize hcall : commitPlan engines (s.runtimes plan.runtime) plan s.world = called
      obtain ⟨status, plan', runtime', w'⟩ := called
      exact .committed hplan hcall
  | releasePlan slot =>
    rw [step, onPlan]
    split
    · exact .same s _
    · rename_i plan hplan
      dsimp only
      generalize hcall : HookKit.releasePlan engines (s.runtimes plan.runtime) plan s.world = called
      obtain ⟨runtime', w'⟩ := called
      exact .released hplan hcall
  | drain runtime =>
    rw [step]
    generalize hcall : drainPending engines runtime (s.runtimes runtime) s.world = called
    obtain ⟨status, results, ledger, runtime', w'⟩ := called
    exact .drained hcall
  | releaseRuntime runtime =>
    rw [step]
    generalize hcall : freePendingHooks engines (s.runtimes runtime) s.world = called
    obtain ⟨runtime', w'⟩ := called
    exact .freed hcall
  | register runtime registered =>
    refine .idle (.refl _) fun id ↦ ?_
    by_cases hid : id = runtime
    · subst hid
      rw [Function.update_self]
    · rw [Function.update_of_ne hid]
  | outside change => exact .idle (World.quiet_setEnv _ _) fun _ ↦ rfl

end System

/-! ## Statements about the process alone -/

section World

variable {engines : EngineRef → Engine ε} {I : World ε → Prop}

/-- What every pass of the loop keeps, a commit keeps. -/
theorem commitPlan_world (hquiet : ∀ w w', w.Quiet (fun _ ↦ False) w' → I w → I w')
    (hpass : ∀ plan st flow, CommitPass engines plan st flow → I st.world → I flow.state.world)
    {runtime runtime' : Runtime} {plan plan' : Plan} {status : Status} {w w' : World ε}
    (hcall : commitPlan engines runtime plan w = (status, plan', runtime', w')) (h : I w) :
    I w' := by
  rcases commitPlan_cases engines runtime plan w with
    ⟨_, _, _, heq, hworld⟩ | ⟨order, w₁, _, _, _, _, heq, hran⟩
  · cases hcall.symm.trans heq
    exact hquiet _ _ hworld h
  · cases hcall.symm.trans heq
    refine hquiet _ _ hran.after (commitLoop_induction (fun st ↦ I st.world) hran.nodup
      (fun i hi ↦ ?_) (hquiet _ _ hran.before h) fun st _ flow hI hp ↦ hpass _ st flow hp hI)
    obtain ⟨hook, hget, -⟩ := hran.prepared i hi
    exact (List.getElem?_eq_some_iff.mp hget).1

/-- What every queued hook keeps, a drain keeps. -/
theorem drainPending_world (hquiet : ∀ w w', w.Quiet (fun _ ↦ False) w' → I w → I w')
    {runtimeId : RuntimeId} {runtime runtime' : Runtime} {status : Status}
    {results : List HookResult} {ledger : Ledger} {w w' : World ε}
    (hpass : ∀ hook ∈ runtime.pending, ∀ w drained w', I w →
      DrainPass engines runtimeId hook w drained w' → I w')
    (hcall : drainPending engines runtimeId runtime w = (status, results, ledger, runtime', w'))
    (h : I w) : I w' := by
  rcases drainPending_cases engines runtimeId runtime w with
    ⟨_, _, heq, hworld⟩ | ⟨w₁, _, _, _, _, _, heq, hran⟩
  · cases hcall.symm.trans heq
    exact hquiet _ _ hworld h
  · cases hcall.symm.trans heq
    exact hquiet _ _ hran.after
      (drainLoop_induction engines I (hquiet _ _ hran.before h) hpass)

theorem freePendingHooks_quiet (runtime : Runtime) (w : World ε) :
    w.Quiet Event.ofState (freePendingHooks engines runtime w).2 :=
  freeAll_quiet engines runtime.pending w

/-- **The rule for statements about the process.**  What survives preparation, the passes of a
commit and the hooks of a drain survives every run. -/
theorem System.world_invariant {stripCode : Ptr → Ptr} {s : System ε} {ops : List (Op ε)}
    (hquiet : ∀ w w', w.Quiet Event.preparing w' → I w → I w')
    (hpass : ∀ plan st flow, CommitPass engines plan st flow → I st.world → I flow.state.world)
    (hdrain : ∀ runtime hook w drained w', DrainPass engines runtime hook w drained w' →
      I w → I w')
    (hstart : I s.world) : I (s.run engines stripCode ops).world := by
  have hsilent : ∀ w w', w.Quiet (fun _ ↦ False) w' → I w → I w' :=
    fun w w' h ↦ hquiet w w' (h.mono fun _ ↦ False.elim)
  refine run_invariant (fun s ↦ I s.world) (fun s op hI ↦ ?_) s ops hstart
  have hstep := step_stepped engines stripCode s op
  generalize s.step engines stripCode op = s' at hstep ⊢
  cases hstep with
  | idle h => exact hsilent _ _ h hI
  | drafted _ _ _ h => exact hsilent _ _ h hI
  | analyzed _ _ _ _ _ h => exact hsilent _ _ h hI
  | @prepared slot plan _ _ _ hplan hcall =>
    have h := (preparePlan_spec engines plan s.world).1
    rw [hcall] at h
    exact hquiet _ _ (h.mono fun _ ↦ Event.ofPrepare.preparing) hI
  | committed _ hcall => exact commitPlan_world hsilent hpass hcall hI
  | @released slot plan _ _ hplan hcall =>
    have h := (releaseHooks_spec engines plan.hooks (s.runtimes plan.runtime) s.world).2
    rw [← releasePlan, hcall] at h
    exact hquiet _ _ (h.mono fun _ ↦ Event.ofState.preparing) hI
  | @drained runtime _ _ _ _ _ hcall =>
    exact drainPending_world hsilent
      (fun hook _ w drained w' hI h ↦ hdrain _ hook w drained w' h hI)
      hcall hI
  | @freed runtime _ _ hcall =>
    have h := @freePendingHooks_quiet _ engines (s.runtimes runtime) s.world
    rw [hcall] at h
    exact hquiet _ _ (h.mono fun _ ↦ Event.ofState.preparing) hI

end World

end HookKit
