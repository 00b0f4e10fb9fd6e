import HookKit.Plan.Account
import HookKit.Plan.Frame

/-!
# Results that hang together

The outcome of a hook, the mutation its result reports, the original it offers and its installed
record are written at different places of preparation, of the roll-up and of the refusals.  This
file says how they fit together, and that they do so in every state of every run.

* `HookResult.Coherent`, `Hook.Coherent` — what fits together.
* `finishCommitAttempt_coherent` — the roll-up.
* `run_coherent` — runs, and what the drains in them report.
-/

set_option autoImplicit false

namespace HookKit

open Loop

variable {ε : Type}

/-! ## Results and hooks -/

/-- The mutation an outcome stands for.  A compensated hook reports what its engine had answered
before it took the change back. -/
def Outcome.mutation : Outcome → Option Mutation
  | .active => some .complete
  | .failedPartial => some .partly
  | .failedUnknown => some .unknown
  | .compensated => none
  | _ => some .none

/-- The mutation is the one the outcome stands for, and only an active hook offers an original. -/
structure HookResult.Coherent (r : HookResult) : Prop where
  mutation : ∀ m, r.outcome.mutation = some m → r.mutation = m
  original : r.originalAvailable = true → r.outcome = .active

/-- The record of a hook is there exactly when an original is offered.  It holds a real original and
the result as the hook has it. -/
structure Hook.Coherent (h : Hook) : Prop where
  result : h.result.Coherent
  available : h.result.originalAvailable = true → h.installed.isSome = true
  retained : ∀ i, h.installed = some i → i.result = h.result ∧
    i.installedId = h.result.installedId ∧ i.hasOriginal = true ∧ i.original ≠ 0 ∧
    h.result.originalAvailable = true

/-- Nothing was mutated, and no original is offered. -/
structure HookResult.Untouched (r : HookResult) : Prop where
  mutation : r.mutation = .none
  original : r.originalAvailable = false

theorem HookResult.Untouched.coherent {r : HookResult} (h : r.Untouched)
    (houtcome : r.outcome.mutation = some .none) : r.Coherent := by
  refine ⟨fun m hm ↦ ?_, fun horiginal ↦ ?_⟩
  · rw [houtcome] at hm
    cases hm
    exact h.mutation
  · rw [h.original] at horiginal
    cases horiginal

theorem HookResult.Untouched.annotates {r r' : HookResult} (h : r.Untouched)
    (hr : r.Annotates r') : r'.Untouched := by
  obtain ⟨_, _, _, _, rfl⟩ := hr
  exact ⟨h.mutation, h.original⟩

theorem HookResult.Untouched.withDiag {r : HookResult} (h : r.Untouched)
    (engineId : Option String) (diag : PrepareDiag) : (r.withDiag engineId diag).Untouched := by
  rw [HookResult.withDiag]
  split
  · exact ⟨h.mutation, h.original⟩
  · exact h

namespace Hook.Coherent

variable {h h' : Hook}

theorem untouched (hc : h.Coherent) (houtcome : h.result.outcome.mutation = some .none) :
    h.result.Untouched ∧ h.installed = none := by
  have hoff : h.result.originalAvailable = false := by
    refine Bool.eq_false_iff.mpr fun hon ↦ ?_
    rw [hc.result.original hon] at houtcome
    cases houtcome
  refine ⟨⟨hc.result.mutation _ houtcome, hoff⟩, ?_⟩
  cases hinstalled : h.installed with
  | none => rfl
  | some i =>
    obtain ⟨-, -, -, -, hon⟩ := hc.retained i hinstalled
    rw [hoff] at hon
    cases hon

theorem of_untouched (hr : h.result.Untouched) (hinstalled : h.installed = none)
    (houtcome : h.result.outcome.mutation = some .none) : h.Coherent := by
  refine ⟨hr.coherent houtcome, fun hon ↦ ?_, fun i hi ↦ ?_⟩
  · rw [hr.original] at hon
    cases hon
  · rw [hinstalled] at hi
    cases hi

end Hook.Coherent

/-- A coherent hook that has no record yet. -/
structure Hook.Bare (h : Hook) : Prop where
  coherent : h.Coherent
  installed : h.installed = none

theorem Hook.Bare.of_untouched {h : Hook} (hr : h.result.Untouched)
    (hinstalled : h.installed = none) (houtcome : h.result.outcome.mutation = some .none) : h.Bare :=
  ⟨.of_untouched hr hinstalled houtcome, hinstalled⟩

theorem Hook.Coherent.bare {h : Hook} (hc : h.Coherent) (houtcome : h.result.outcome ≠ .active) :
    h.Bare := by
  refine ⟨hc, ?_⟩
  cases hinstalled : h.installed with
  | none => rfl
  | some i =>
    obtain ⟨-, -, -, -, hon⟩ := hc.retained i hinstalled
    exact absurd (hc.result.original hon) houtcome

theorem Hook.Blank.coherent_result {h : Hook} (hb : h.Blank) :
    h.result.outcome.mutation = some .none := by
  rw [hb.outcome]
  rfl

/-! ## Releasing what an engine prepared -/

variable (engines : EngineRef → Engine ε)

theorem releasePrepared_result (hook : Hook) (w : World ε) :
    (releasePrepared engines hook w).1.result = hook.result ∨
      hook.result.mutation = .none ∧ (releasePrepared engines hook w).1.result =
        { hook.result with
          continuation := .absent, originalAvailable := false, currentlyValid := false } := by
  rw [releasePrepared]
  split
  · exact .inl rfl
  · dsimp only
    split
    · rename_i hnone
      exact .inr ⟨hnone, rfl⟩
    · exact .inl rfl

theorem releasePrepared_untouched {hook : Hook} (h : hook.result.Untouched) (w : World ε) :
    (releasePrepared engines hook w).1.result.Untouched := by
  rcases releasePrepared_result engines hook w with heq | ⟨-, heq⟩ <;> rw [heq]
  · exact h
  · exact ⟨h.mutation, rfl⟩

/-! ## Preparation -/

/-- Every hook of the loop hangs together, and none has a record. -/
def PrepareState.Bare (st : PrepareState ε) : Prop := ∀ hook ∈ st.hooks, hook.Bare

theorem PrepareState.Bare.set {st : PrepareState ε} (h : st.Bare) {hook : Hook}
    (hhook : hook.Bare) (index : Nat) : ∀ x ∈ st.hooks.set index hook, x.Bare := by
  intro x hx
  rcases List.mem_or_eq_of_mem_set hx with hx | rfl
  · exact h x hx
  · exact hhook

/-- What the loop stores for a hook that it refuses before its engine is asked. -/
theorem Hook.Bare.refused {hook : Hook} (h : hook.Bare)
    (hanalyzed : hook.result.outcome = .analyzed) {out : HookResult} (hmutation : out.mutation = hook.result.mutation)
    (horiginal : out.originalAvailable = hook.result.originalAvailable)
    (houtcome : out.outcome.mutation = some .none) : Hook.Bare { hook with result := out } := by
  obtain ⟨huntouched, hinstalled⟩ := h.coherent.untouched (by rw [hanalyzed]; rfl)
  exact .of_untouched ⟨hmutation.trans huntouched.mutation, horiginal.trans huntouched.original⟩
    hinstalled houtcome

theorem releaseDomainMembers_bare (domain : Id) {hooks : List Hook} (h : ∀ hook ∈ hooks, hook.Bare)
    (w : World ε) : ∀ hook ∈ (releaseDomainMembers engines domain hooks w).1, hook.Bare := by
  induction hooks generalizing w with
  | nil => exact h
  | cons hook rest ih =>
    obtain ⟨hhook, hrest⟩ := List.forall_mem_cons.mp h
    rw [releaseDomainMembers]
    split
    · rename_i hmember
      refine List.forall_mem_cons.mpr ⟨?_, ih hrest _⟩
      obtain ⟨huntouched, hinstalled⟩ := hhook.coherent.untouched (by rw [hmember.2]; rfl)
      have hreleased := releasePrepared_untouched engines huntouched w
      exact .of_untouched ⟨rfl, hreleased.original⟩
        ((releasePrepared_touched engines hook w).installed.trans hinstalled) rfl
    · exact List.forall_mem_cons.mpr ⟨hhook, ih hrest w⟩

theorem failDomain_bare (domains : List Domain) (gateOk : Id → Bool) (hook : Hook)
    {st : PrepareState ε} (h : st.Bare) : (failDomain engines domains gateOk hook st).Bare := by
  rw [failDomain]
  split
  · exact h
  · split
    · exact releaseDomainMembers_bare engines _ h _
    · exact h

theorem preparedOutcome_mutation (spec : HookSpec) (result : PrepareResult) :
    (preparedOutcome spec result).mutation = some .none := by
  cases result with
  | ok => rfl
  | failed => rfl
  | notApplicable =>
    rw [preparedOutcome]
    split <;> rfl

theorem preparedResult_untouched {out : HookResult} (h : out.Untouched) (hook : Hook)
    (result : PrepareResult) (diag : PrepareDiag) :
    (preparedResult engines hook out result diag).Untouched := by
  have hout : HookResult.Untouched { out with observedPrepareEffects := diag.observedEffects } :=
    ⟨h.mutation, h.original⟩
  have hdiag := hout.withDiag (hook.caps engines).engineId diag
  cases result <;> exact ⟨hdiag.mutation, hdiag.original⟩

theorem recordPrepareAttempt_bare (domains : List Domain) (gateOk : Id → Bool) (index : Nat)
    (result : PrepareResult) {hook : Hook} (hinstalled : hook.installed = none)
    (diag : PrepareDiag) {out : HookResult} (hout : out.Untouched) {st : PrepareState ε}
    (h : st.Bare) :
    (recordPrepareAttempt engines domains gateOk index result hook diag out st).Bare := by
  obtain ⟨htouched₁, -⟩ := validatePrepareEffects_spec engines result hook diag st.world
  rw [recordPrepareAttempt]
  generalize validatePrepareEffects engines result hook diag st.world = validated at htouched₁ ⊢
  obtain ⟨result', hook₁, diag', w₁⟩ := validated
  dsimp only at htouched₁ ⊢
  have htouched₂ : hook₁.Touched
      (if result' ≠ .ok then releasePrepared engines hook₁ w₁ else (hook₁, w₁)).1 := by
    split
    · exact releasePrepared_touched engines hook₁ w₁
    · exact .refl hook₁
  generalize (if result' ≠ .ok then releasePrepared engines hook₁ w₁ else (hook₁, w₁)) = released
    at htouched₂ ⊢
  obtain ⟨hook₂, w₂⟩ := released
  dsimp only at htouched₂ ⊢
  have hhook : Hook.Bare
      { hook₂ with result := preparedResult engines hook₂ out result' diag' } := by
    refine .of_untouched (preparedResult_untouched engines hout hook₂ result' diag')
      ((htouched₁.trans htouched₂).installed.trans hinstalled) ?_
    dsimp only
    rw [preparedResult_outcome]
    exact preparedOutcome_mutation hook₂.spec result'
  split
  · exact failDomain_bare engines domains gateOk _ (h.set hhook index)
  · exact h.set hhook index

theorem recordPrepareGroup_bare (answer : PrepareGroupAnswer) (index : Nat)
    {outs : List HookResult} (houts : ∀ out ∈ outs, out.Untouched) (offset : Nat)
    {st : PrepareState ε} (h : st.Bare) :
    (recordPrepareGroup engines answer index outs offset st).Bare := by
  induction outs generalizing offset st with
  | nil => exact h
  | cons out rest ih =>
    obtain ⟨hout, hrest⟩ := List.forall_mem_cons.mp houts
    rw [recordPrepareGroup]
    split
    · exact h
    rename_i hook hget
    have hinstalled := (h hook (List.mem_of_getElem? hget)).installed
    dsimp only
    generalize (if answer.accepted = true then answer.writes offset
      else { answer.writes offset with result := .failed, prepared := 0 }) = written
    refine ih hrest (offset + 1) (recordPrepareAttempt_bare engines [] _ _ _ ?_ _ hout h)
    split
    · exact (inspectPreparedContinuation_spec engines _ _ _).1.installed.trans hinstalled
    · exact hinstalled

theorem releaseAll_bare {hooks : List Hook}
    (h : ∀ hook ∈ hooks, hook.Bare ∧ hook.result.outcome = .analyzed) (w : World ε) :
    ∀ hook ∈ (releaseAll engines hooks w).1, hook.Bare := by
  induction hooks generalizing w with
  | nil => exact fun _ hhook ↦ absurd hhook List.not_mem_nil
  | cons hook rest ih =>
    obtain ⟨⟨hhook, hanalyzed⟩, hrest⟩ := List.forall_mem_cons.mp h
    refine List.forall_mem_cons.mpr ⟨?_, ih hrest _⟩
    have houtcome : hook.result.outcome.mutation = some .none := by
      rw [hanalyzed]
      rfl
    have htouched := releasePrepared_touched engines hook w
    exact .of_untouched
      (releasePrepared_untouched engines (hhook.coherent.untouched houtcome).1 w)
      (htouched.installed.trans hhook.installed)
      ((congrArg Outcome.mutation htouched.outcome).trans houtcome)

theorem prepareGroup_bare (runtime : RuntimeId) (count : Nat) {st : PrepareState ε} (h : st.Bare)
    (hmembers : ∀ hook ∈ (st.hooks.drop st.index).take count, hook.result.outcome = .analyzed) :
    (prepareGroup engines runtime count st).state.Bare := by
  have hmem : ∀ hook ∈ (st.hooks.drop st.index).take count, hook ∈ st.hooks := fun hook hhook ↦
    List.mem_of_mem_drop (List.mem_of_mem_take hhook)
  rw [prepareGroup]
  split
  · exact h
  rename_i w _
  dsimp only [Flow.state_next]
  refine recordPrepareGroup_bare engines _ _ (fun out hout ↦ ?_) _ fun hook hhook ↦ ?_
  · obtain ⟨hook, hhook, rfl⟩ := List.mem_map.mp hout
    exact ((h hook (hmem hook hhook)).coherent.untouched (by rw [hmembers hook hhook]; rfl)).1
  · rcases List.mem_append.mp hhook with hhook | hhook
    · rcases List.mem_append.mp hhook with hhook | hhook
      · exact h hook (List.mem_of_mem_take hhook)
      · exact releaseAll_bare engines (fun x hx ↦ ⟨h x (hmem x hx), hmembers x hx⟩) w hook hhook
    · exact h hook (List.mem_of_mem_drop hhook)

theorem prepareSingle_bare (runtime : RuntimeId) (domains : List Domain) (gateOk : Id → Bool)
    {hook : Hook} {st : PrepareState ε} (h : st.Bare) (hhook : hook.Bare)
    (hanalyzed : hook.result.outcome = .analyzed) :
    (prepareSingle engines runtime domains gateOk hook st).Bare := by
  have htouched₁ := releasePrepared_touched engines hook st.world
  rw [prepareSingle]
  generalize releasePrepared engines hook st.world = released at htouched₁ ⊢
  obtain ⟨hook₁, w₁⟩ := released
  have htouched₂ := dispatchPrepare_touched engines .single runtime hook₁ w₁
  dsimp only at htouched₁ ⊢
  generalize dispatchPrepare engines .single runtime hook₁ w₁ = dispatched at htouched₂ ⊢
  obtain ⟨result, hook₂, diag, w₂⟩ := dispatched
  obtain ⟨hout, hinstalled⟩ := hhook.coherent.untouched (by rw [hanalyzed]; rfl)
  exact recordPrepareAttempt_bare engines domains gateOk st.index result
    ((htouched₁.trans htouched₂).installed.trans hinstalled) diag hout h

theorem prepareIter_bare (runtime : RuntimeId) (domains : List Domain) (gateOk : Id → Bool)
    {st : PrepareState ε} (h : st.Bare) :
    (prepareIter engines runtime domains gateOk st).state.Bare := by
  rw [prepareIter]
  split
  · exact h
  rename_i hook hget
  have hhook := h hook (List.mem_of_getElem? hget)
  split
  · exact h
  rename_i hanalyzed
  rw [not_not] at hanalyzed
  dsimp only
  split
  · rename_i hcount
    exact prepareGroup_bare engines runtime _ h (prepareGroupCount_analyzed hcount)
  split
  · rw [prepareStale]
    refine failDomain_bare engines domains gateOk _ (h.set ?_ st.index)
    exact hhook.refused hanalyzed rfl rfl rfl
  split
  · refine h.set ?_ st.index
    exact hhook.refused hanalyzed rfl rfl rfl
  · refine prepareSingle_bare engines runtime domains gateOk ?_ hhook hanalyzed
    exact h

/-- **A call of `hk_plan_prepare`.** -/
theorem preparePlan_bare {plan : Plan} (h : ∀ hook ∈ plan.hooks, hook.Bare) (w : World ε) :
    ∀ hook ∈ (preparePlan engines plan w).2.1.hooks, hook.Bare := by
  rw [preparePlan]
  split
  · exact h
  split
  · exact h
  rename_i w₁ _
  have hloop : (prepareLoop engines plan w₁).state.Bare :=
    run_invariant PrepareState.Bare (fun st _ hst ↦ prepareIter_bare engines _ _ _ hst) _ h
  split <;> rename_i heq <;> rw [heq] at hloop
  · exact hloop
  · split
    · exact hloop
    · exact hloop

/-! ## The roll-up -/

theorem Mutation.outcome_mutation (mutation : Mutation) :
    mutation.outcome.mutation = some mutation := by
  cases mutation <;> rfl

theorem rollUp_original (runtime : RuntimeId) (hook : Hook) (out : HookResult)
    (artifactCount : Nat) (mutation : Mutation) (sink : Sink) (w : World ε) :
    (rollUp engines runtime hook out artifactCount mutation sink w).2.originalAvailable =
      out.originalAvailable := by
  rw [rollUp]
  dsimp only
  obtain ⟨verified, domain, code, message, hout⟩ := validateCommitEffects_annotates engines hook
    sink out
  rw [hout]
  split <;> rfl

/-- An original that is published goes into a record, unless there is no memory for it. -/
theorem retainOriginal_coherent {hook : Hook} (hinstalled : hook.installed = none)
    {out : HookResult} (houtcome : out.outcome = .active) (hmutation : out.mutation = .complete)
    (horiginal : out.originalAvailable = false) (published : Ptr) (w : World ε) :
    Hook.Coherent { (retainOriginal hook out published w).1 with
      result := (retainOriginal hook out published w).2.1 } := by
  have hresult : ∀ {id : Id} {available : Bool}, HookResult.Coherent
      { out with installedId := id, originalAvailable := available } := by
    refine ⟨fun m hm ↦ ?_, fun _ ↦ houtcome⟩
    dsimp only at hm
    rw [houtcome] at hm
    cases hm
    exact hmutation
  have hbare : ∀ {id : Id}, Hook.Coherent { hook with
      result := { out with installedId := id, originalAvailable := false } } := by
    refine ⟨hresult, by simp, fun i hi ↦ ?_⟩
    rw [hinstalled] at hi
    cases hi
  rw [retainOriginal]
  split
  · rw [← horiginal] at hbare
    exact hbare
  rename_i hpublished
  dsimp only
  split
  · rename_i record w' heq
    refine ⟨hresult, fun _ ↦ rfl, fun i hi ↦ ?_⟩
    obtain rfl := Option.some.inj hi
    rw [World.createInstalled] at heq
    split at heq
    · cases heq
    · cases heq
      exact ⟨rfl, rfl, by simpa using hpublished, hpublished, rfl⟩
  · exact hbare

/-- **The roll-up** of a hook that has no record yet. -/
theorem finishCommitAttempt_coherent (path : Path) (runtime : RuntimeId) {hook : Hook}
    (hinstalled : hook.installed = none) {out : HookResult}
    (horiginal : out.originalAvailable = false) (ledger : Ledger) (artifactStart : Nat)
    (mutation : Mutation) (sink : Sink) (group : Option VerifyAnswer) (owned compensated : Bool)
    (w : World ε) :
    (finishCommitAttempt engines path runtime hook out ledger artifactStart mutation sink group
      owned compensated w).1.Coherent := by
  rw [finishCommitAttempt]
  have hrolled := rollUp_original engines runtime hook out (ledger.count - artifactStart) mutation
    sink w
  generalize rollUp engines runtime hook out (ledger.count - artifactStart) mutation sink w = rolled
    at hrolled ⊢
  obtain ⟨m₁, out₁⟩ := rolled
  dsimp only at hrolled ⊢
  have hverified := (applyVerification_verified engines hook ledger artifactStart m₁ out₁ group
    w).result
  generalize applyVerification engines hook ledger artifactStart m₁ out₁ group w = verified
    at hverified ⊢
  obtain ⟨ledger₂, m₂, out₂, w₂⟩ := verified
  dsimp only at hverified ⊢
  have horiginal₂ : out₂.originalAvailable = false := by
    obtain ⟨_, _, _, _, hout₂⟩ := hverified
    rw [hout₂]
    exact hrolled.trans horiginal
  -- the result has the mutation the outcome is chosen by
  have hrecorded : ∀ r, (if owned then
      recordOwnership engines hook { out₂ with mutation := m₂ } m₂ sink.publishedOriginal w₂
      else (m₂, { out₂ with mutation := m₂ }, w₂)) = r →
      r.2.1.mutation = r.1 ∧ r.2.1.originalAvailable = false := by
    rintro r rfl
    split
    · rcases recordOwnership_result engines hook { out₂ with mutation := m₂ } m₂
        sink.publishedOriginal w₂ with ⟨hm, hr⟩ | ⟨-, hm, _, _, _, hr⟩ <;> rw [hm, hr]
      · exact ⟨rfl, horiginal₂⟩
      · exact ⟨rfl, horiginal₂⟩
    · exact ⟨rfl, horiginal₂⟩
  generalize (if owned then
      recordOwnership engines hook { out₂ with mutation := m₂ } m₂ sink.publishedOriginal w₂
      else (m₂, { out₂ with mutation := m₂ }, w₂)) = recorded at hrecorded ⊢
  obtain ⟨m₃, out₃, w₃⟩ := recorded
  obtain ⟨hmutation₃, horiginal₃⟩ := hrecorded _ rfl
  dsimp only at hmutation₃ horiginal₃ ⊢
  have hbare : ∀ {o : Outcome}, (∀ m, o.mutation = some m → out₃.mutation = m) →
      Hook.Coherent { hook with result := { out₃ with outcome := o } } := by
    intro o ho
    refine ⟨⟨ho, fun hon ↦ ?_⟩, fun hon ↦ ?_, fun i hi ↦ ?_⟩
    · cases horiginal₃.symm.trans hon
    · cases horiginal₃.symm.trans hon
    · cases hinstalled.symm.trans hi
  cases compensated with
  | true => exact hbare (by simp [Outcome.mutation])
  | false =>
    rw [if_neg (by decide)]
    split
    · rename_i hcomplete
      have hretained := @retainOriginal_coherent _ _ hinstalled { out₃ with outcome := .active }
        rfl (hmutation₃.trans hcomplete) horiginal₃ sink.publishedOriginal w₃
      generalize retainOriginal hook { out₃ with outcome := .active } sink.publishedOriginal w₃ = r
        at hretained ⊢
      exact hretained
    · refine hbare fun m hm ↦ ?_
      rw [m₃.outcome_mutation] at hm
      exact hmutation₃.trans (Option.some.inj hm)

/-- **The critical section of a one-hook commit.** -/
theorem commitOneHook_coherent (path : Path) (runtime : RuntimeId) (planId ownerId : Id)
    (continuation : Option ContinuationInfo) {hook : Hook} (hinstalled : hook.installed = none)
    {out : HookResult} (hout : out.originalAvailable = false) (ledger : Ledger) (w : World ε) :
    (commitOneHook engines path runtime planId ownerId continuation hook out ledger
      w).1.Coherent := by
  rw [commitOneHook]
  dsimp only
  split
  · exact .of_untouched ⟨rfl, hout⟩ hinstalled rfl
  · generalize dispatchCommit engines path runtime hook _ w = dispatched
    obtain ⟨m₁, sink, w₁⟩ := dispatched
    dsimp only
    have hrecovered := recoverMutation_annotates engines hook (w.owners.lookup hook.targetKey) m₁
      sink out
    generalize recoverMutation engines hook (w.owners.lookup hook.targetKey) m₁ sink out = recovered
      at hrecovered ⊢
    obtain ⟨m₂, out₂⟩ := recovered
    obtain ⟨_, _, _, _, hout₂⟩ := hrecovered
    refine finishCommitAttempt_coherent engines path runtime hinstalled ?_ _ _ _ _ _ _ _ _
    rw [hout₂]
    exact hout

/-! ## Committing a plan -/

/-- The settled hooks of a wave. -/
theorem finishMembers_coherent (runtime : RuntimeId) (verified : Bool) {members : List Member}
    (h : ∀ m ∈ members, m.hook.installed = none ∧ m.out.originalAvailable = false)
    (ledger : Ledger) (w : World ε) :
    ∀ hook ∈ (finishMembers engines runtime verified members ledger w).1, hook.Coherent := by
  induction members generalizing ledger w with
  | nil => exact fun _ hhook ↦ absurd hhook List.not_mem_nil
  | cons m rest ih =>
    obtain ⟨⟨hinstalled, hout⟩, hrest⟩ := List.forall_mem_cons.mp h
    rw [finishMembers]
    exact List.forall_mem_cons.mpr
      ⟨finishCommitAttempt_coherent engines _ _ hinstalled hout _ _ _ _ _ _ _ _, ih hrest _ _⟩

theorem waveSettled_coherent {plan : CommitPlan} {count : Nat} {st : CommitState ε}
    (h : ∀ hook ∈ waveHooks plan count st, hook.Coherent ∧ hook.result.outcome = .prepared) :
    ∀ hook ∈ (waveSettled engines plan count st).1, hook.Coherent := by
  refine finishMembers_coherent engines _ _ (fun m' hm' ↦ ?_) _ _
  obtain ⟨i, hi⟩ := List.getElem?_of_mem hm'
  obtain ⟨hook, m, l, w, hook', hsettled⟩ := settledMember_of_stored engines hi
  obtain ⟨hcoherent, hprepared⟩ := h hook (List.mem_of_getElem? hsettled.hookAt)
  obtain ⟨huntouched, hinstalled⟩ := hcoherent.untouched (by rw [hprepared]; rfl)
  obtain ⟨mid, hrecords, hstores⟩ := hsettled.recorded
  refine ⟨hsettled.storedHook.symm ▸ hinstalled, ?_⟩
  rw [hstores.out]
  exact ((huntouched.annotates hsettled.out).annotates hrecords.out).original

theorem markDomainCommitPreflightFailed_coherent (generation : Nat) (domain : Id)
    {hooks : List Hook} (h : ∀ hook ∈ hooks, hook.Coherent) (w : World ε) :
    ∀ hook ∈ (markDomainCommitPreflightFailed engines generation domain hooks w).1,
      hook.Coherent := by
  induction hooks generalizing w with
  | nil => exact h
  | cons hook rest ih =>
    obtain ⟨hhook, hrest⟩ := List.forall_mem_cons.mp h
    rw [markDomainCommitPreflightFailed]
    split
    · rename_i hmember
      refine List.forall_mem_cons.mpr ⟨?_, ih hrest _⟩
      obtain ⟨huntouched, hinstalled⟩ := hhook.untouched (by rw [hmember.2]; rfl)
      rw [settle_eq]
      dsimp only
      rw [preflightResult]
      split
      · exact .of_untouched ⟨rfl, huntouched.original⟩ hinstalled rfl
      · exact .of_untouched ⟨rfl, huntouched.original⟩ hinstalled rfl
    · exact List.forall_mem_cons.mpr ⟨hhook, ih hrest w⟩

theorem coherent_set {hooks : List Hook} (h : ∀ hook ∈ hooks, hook.Coherent) {hook : Hook}
    (hhook : hook.Coherent) (index : Nat) : ∀ x ∈ hooks.set index hook, x.Coherent := by
  intro x hx
  rcases List.mem_or_eq_of_mem_set hx with hx | rfl
  · exact h x hx
  · exact hhook

theorem commitSingle_coherent (plan : CommitPlan) {index : Nat} {hook : Hook} {st : CommitState ε}
    (h : ∀ hook ∈ st.hooks, hook.Coherent) (hhook : hook.Coherent)
    (hprepared : hook.result.outcome = .prepared) :
    ∀ x ∈ (commitSingle engines plan index hook st).hooks, x.Coherent := by
  obtain ⟨huntouched, hinstalled⟩ := hhook.untouched (by rw [hprepared]; rfl)
  rw [commitSingle]
  split
  · refine coherent_set h ?_ _
    exact .of_untouched ⟨huntouched.mutation, huntouched.original⟩ hinstalled rfl
  · dsimp only
    split
    · refine coherent_set h ?_ _
      exact .of_untouched ⟨rfl, huntouched.original⟩ hinstalled rfl
    · exact coherent_set h (commitOneHook_coherent engines _ _ _ _ _ hinstalled huntouched.original
        _ _) _

/-- A wave that runs out of memory settles nothing. -/
theorem commitGroup_stop {plan : CommitPlan} {count : Nat} {st st' : CommitState ε}
    (h : commitGroup engines plan count st = .stop st') : st'.hooks = st.hooks := by
  rw [commitGroup] at h
  split at h
  · cases h
    rfl
  dsimp only at h
  split at h
  · cases h
    rfl
  · cases h

/-- **One pass of the loop in `hk_plan_commit`.** -/
theorem commitIter_coherent (plan : CommitPlan) {st : CommitState ε}
    (hvalid : ∀ i ∈ plan.order, i < st.hooks.length) (h : ∀ hook ∈ st.hooks, hook.Coherent) :
    ∀ hook ∈ (commitIter engines plan st).state.hooks, hook.Coherent := by
  rw [commitIter]
  split
  · exact h
  rename_i index horder
  split
  · exact h
  rename_i hook hget
  split
  · exact h
  rename_i hprepared
  rw [not_not] at hprepared
  dsimp only
  split
  · rename_i hcount
    cases hflow : commitGroup engines plan _ st with
    | stop st' =>
      rw [Flow.state_stop, commitGroup_stop engines hflow]
      exact h
    | next st' =>
      have hmembers := (WavePass.mk ⟨index, hook, horder, hget, hprepared⟩ rfl hcount
        hflow).members hvalid
      obtain rfl := commitGroup_next engines hflow
      intro x hx
      rcases writeBack_mem hx with hx | hx
      · exact h x hx
      · exact waveSettled_coherent engines
          (fun y hy ↦ ⟨h y (hooksAt_mem hy), (hmembers.1 y hy).1⟩) x hx
  · dsimp only [Flow.state_next]
    split
    · exact markDomainCommitPreflightFailed_coherent engines _ _ h _
    · exact commitSingle_coherent engines plan h (h hook (List.mem_of_getElem? hget)) hprepared

/-- **A call of `hk_plan_commit`.** -/
theorem commitPlan_coherent {runtime : Runtime} {plan : Plan}
    (h : ∀ hook ∈ plan.hooks, hook.Coherent) (w : World ε) :
    ∀ hook ∈ (commitPlan engines runtime plan w).2.1.hooks, hook.Coherent := by
  rcases commitPlan_cases engines runtime plan w with
    ⟨_, _, _, heq, -⟩ | ⟨order, w₁, _, _, _, _, heq, hran⟩
  · rw [heq]
    exact h
  · obtain ⟨state, hplan, -⟩ := hran.planAfter
    rw [heq, hplan]
    have hvalid : ∀ i ∈ order, i < plan.hooks.length := fun i hi ↦
      (hran.prepared i hi).lt
    refine (run_invariant (fun st : CommitState ε ↦
      (∀ hook ∈ st.hooks, hook.Coherent) ∧ st.hooks.length = plan.hooks.length)
      (fun st _ hst ↦ ⟨?_, ?_⟩) _ ⟨h, rfl⟩).1
    · refine commitIter_coherent engines _ (fun i hi ↦ ?_) hst.1
      rw [hst.2]
      exact hvalid i hi
    · exact (@commitIter_pass_of_length _ _ (plan.toCommit runtime order) _ hran.nodup hvalid _
        hst.2).2

/-! ## Draining -/

theorem drainPrepare_untouched (runtime : RuntimeId) {hook : Hook} (h : hook.result.Untouched)
    (w : World ε) : (drainPrepare engines runtime hook w).2.2.1.Untouched := by
  rw [drainPrepare]
  dsimp only
  split
  · exact ⟨h.mutation, h.original⟩
  · exact ⟨h.mutation, h.original⟩

/-- A queued hook: what it is reported with, and the hook itself if it stays. -/
theorem drainOne_coherent (runtime : RuntimeId) (ownerId : Id) {hook : Hook} (h : hook.Coherent)
    (hpending : hook.result.outcome = .pending) (ledger : Ledger) (w : World ε) :
    (drainOne engines runtime ownerId hook ledger w).1.result.Coherent ∧
      ∀ kept, (drainOne engines runtime ownerId hook ledger w).1.kept = some kept →
        kept.Coherent := by
  obtain ⟨huntouched, hinstalled⟩ := h.untouched (by rw [hpending]; rfl)
  have hout := drainPrepare_untouched engines runtime huntouched w
  have htouched := (drainPrepare_spec engines runtime hook w).1
  rw [drainOne]
  generalize drainPrepare engines runtime hook w = prepared at hout htouched ⊢
  obtain ⟨result, hook₁, out, w₁⟩ := prepared
  dsimp only at hout htouched
  have hinstalled₁ := htouched.installed.trans hinstalled
  cases result with
  | notApplicable =>
    dsimp only
    have hwaits : HookResult.Untouched
        { out with outcome := .pending, retryable := true, currentlyValid := false } :=
      ⟨hout.mutation, hout.original⟩
    refine ⟨hwaits.coherent rfl, fun kept hkept ↦ ?_⟩
    cases hkept
    exact .of_untouched hwaits hinstalled₁ rfl
  | failed =>
    have hfails : HookResult.Untouched { out with outcome := .failedSafe, retryable := false } :=
      ⟨hout.mutation, hout.original⟩
    refine ⟨hfails.coherent rfl, fun kept hkept ↦ ?_⟩
    cases hkept
  | ok =>
    have hone := commitOneHook_coherent engines .drain runtime out.planId ownerId none hinstalled₁
      hout.original ledger w₁
    dsimp only
    generalize commitOneHook engines .drain runtime out.planId ownerId none hook₁ out ledger
      w₁ = one at hone ⊢
    refine ⟨hone.result, fun kept hkept ↦ ?_⟩
    cases hkept

theorem drainLoop_coherent (runtime : RuntimeId) (ownerId : Id) {hooks : List Hook}
    (h : ∀ hook ∈ hooks, hook.Coherent ∧ hook.result.outcome = .pending) (ledger : Ledger)
    (w : World ε) :
    ∀ drained ∈ (drainLoop engines runtime ownerId hooks ledger w).1, drained.result.Coherent ∧
      ∀ kept, drained.kept = some kept → kept.Coherent := by
  induction hooks generalizing ledger w with
  | nil => exact fun _ hdrained ↦ absurd hdrained List.not_mem_nil
  | cons hook rest ih =>
    obtain ⟨⟨hhook, hpending⟩, hrest⟩ := List.forall_mem_cons.mp h
    rw [drainLoop]
    exact List.forall_mem_cons.mpr
      ⟨drainOne_coherent engines _ _ hhook hpending _ _, ih hrest _ _⟩

/-- **A call of `hk_runtime_drain_pending`.** -/
theorem drainPending_coherent (runtimeId : RuntimeId) {runtime : Runtime}
    (h : ∀ hook ∈ runtime.pending, hook.Coherent ∧ hook.result.outcome = .pending) (w : World ε) :
    (∀ result ∈ (drainPending engines runtimeId runtime w).2.1, result.Coherent) ∧
      ∀ hook ∈ (drainPending engines runtimeId runtime w).2.2.2.1.pending, hook.Coherent := by
  rcases drainPending_cases engines runtimeId runtime w with
    ⟨_, _, heq, -⟩ | ⟨w₁, _, _, _, _, _, heq, hran⟩
  · rw [heq]
    exact ⟨fun _ hr ↦ absurd hr List.not_mem_nil, fun hook hhook ↦ (h hook hhook).1⟩
  · have hloop := drainLoop_coherent engines runtimeId runtime.ownerId h .empty w₁
    obtain ⟨artifacts, hruntime⟩ := hran.runtimeAfter
    rw [heq, hruntime]
    refine ⟨fun result hresult ↦ ?_, fun hook hhook ↦ ?_⟩
    · dsimp only at hresult
      rcases hran.results with hnone | hall
      · rw [hnone] at hresult
        exact absurd hresult List.not_mem_nil
      · rw [hall] at hresult
        obtain ⟨drained, hdrained, rfl⟩ := List.mem_map.mp hresult
        exact (hloop drained hdrained).1
    · obtain ⟨drained, hdrained, hkept⟩ := List.mem_filterMap.mp hhook
      exact (hloop drained hdrained).2 hook hkept

/-! ## Drafting and analysis -/

theorem addHook_coherent (stripCode : Ptr → Ptr) {plan : Plan} (spec : HookSpec) (w : World ε)
    (h : ∀ hook ∈ plan.hooks, hook.Coherent) :
    ∀ hook ∈ (addHook stripCode plan spec w).2.1.hooks, hook.Coherent := by
  rw [addHook]
  split
  · exact h
  split
  · exact h
  split
  · exact h
  split
  · exact h
  split
  · exact h
  split
  · exact h
  split
  · exact h
  dsimp only
  split
  · exact h
  · intro hook hhook
    rcases List.mem_append.mp hhook with hhook | hhook
    · exact h hook hhook
    · rw [List.mem_singleton.mp hhook]
      exact .of_untouched ⟨rfl, rfl⟩ rfl rfl

/-- Analysis starts a new result. -/
theorem analyzeOne_bare (runtime : Runtime) (runtimeId : RuntimeId) (planId : Id) {hook : Hook}
    (h : hook.Bare) (env : Env ε) :
    (analyzeOne engines runtime runtimeId planId hook env).1.Bare := by
  rw [analyzeOne]
  dsimp only
  split
  · exact .of_untouched ⟨rfl, rfl⟩ h.installed rfl
  · exact .of_untouched ⟨rfl, rfl⟩ h.installed rfl

/-! ## Runs -/

namespace System

/-- **Every call keeps the hooks coherent.** -/
theorem step_coherent (stripCode : Ptr → Ptr) {s : System ε} (hs : s.Sound)
    (h : Everywhere Hook.Coherent s.held) (op : Op ε) :
    Everywhere Hook.Coherent (s.step engines stripCode op).held := by
  cases op with
  | createPlan slot runtime =>
    obtain ⟨-, hnew⟩ := createPlan_spec runtime s.world
    rw [step]
    split
    · exact h
    · split <;> rename_i heq <;> rw [heq] at hnew
      · rw [held_setWorld, held_setPlan, Option.map_some, Option.getD_some, (hnew _ rfl).2]
        exact h.update _ (by simp)
      · exact h
  | defineDomain slot spec =>
    rw [step, onPlan]
    split
    · exact h
    · rename_i plan hplan
      rw [held_setWorld, held_setPlan]
      refine h.update _ ?_
      rcases (defineDomain_spec plan spec s.world).2 with heq | ⟨-, -, heq⟩
      · rw [heq]
        exact h.plan hplan
      · rw [Option.map_some, Option.getD_some, heq]
        exact h.plan hplan
  | addHook slot spec =>
    rw [step, onPlan]
    split
    · exact h
    · rename_i plan hplan
      rw [held_setWorld, held_setPlan]
      exact h.update _ (addHook_coherent stripCode spec s.world (h.plan hplan))
  | analyze slot =>
    rw [step, onPlan]
    split
    · exact h
    · rename_i plan hplan
      rw [held_setWorld, held_setPlan]
      refine h.update _ ?_
      by_cases hdraft : plan.state = .draft
      · have hbare : ∀ hook ∈ plan.hooks, hook.Bare := fun hook hhook ↦
          (h.plan hplan hook hhook).bare
            (((hs.plans slot plan hplan).uncommitted (.inl hdraft) hook hhook).1)
        exact fun hook hhook ↦ (@analyzePlan_each _ engines Hook.Bare (s.runtimes plan.runtime) plan
          (fun _ env hx ↦ analyzeOne_bare engines _ _ _ hx env) hbare s.world hook hhook).coherent
      · rw [analyzePlan, if_pos hdraft]
        exact h.plan hplan
  | prepare slot =>
    rw [step, onPlan]
    split
    · exact h
    · rename_i plan hplan
      rw [held_setWorld, held_setPlan]
      refine h.update _ ?_
      by_cases hanalyzed : plan.state = .analyzed
      · have hbare : ∀ hook ∈ plan.hooks, hook.Bare := fun hook hhook ↦
          (h.plan hplan hook hhook).bare
            (((hs.plans slot plan hplan).uncommitted (.inr hanalyzed) hook hhook).1)
        exact fun hook hhook ↦ (preparePlan_bare engines hbare s.world hook hhook).coherent
      · rw [preparePlan_refused hanalyzed]
        exact h.plan hplan
  | commit slot =>
    rw [step, onPlan]
    split
    · exact h
    · rename_i plan hplan
      rw [held_setWorld, held_setRuntime, held_setPlan]
      refine (h.update _ (commitPlan_coherent engines (h.plan hplan) s.world)).update _ ?_
      rw [commitPlan_pending]
      exact h (.queue plan.runtime)
  | releasePlan slot =>
    rw [step, onPlan]
    split
    · exact h
    · rename_i plan hplan
      rw [held_setWorld, held_setRuntime, held_setPlan]
      refine (h.update _ (by simp)).update _ ?_
      exact releasePlan_pending (h (.queue plan.runtime)) (h.plan hplan) s.world
  | drain runtime =>
    rw [step, held_setWorld, held_setRuntime]
    exact h.update _ (drainPending_coherent engines runtime
      (fun hook hhook ↦ ⟨h (.queue runtime) hook hhook, hs.queued runtime hook hhook⟩) s.world).2
  | releaseRuntime runtime =>
    rw [step, held_setWorld, held_setRuntime]
    exact h.update _ (by simp [freePendingHooks])
  | register runtime registered =>
    rw [step, held_setRuntime]
    exact h.update _ (h (.queue runtime))
  | outside change => exact h

/-- The hooks of every run hang together. -/
theorem run_everywhere_coherent (stripCode : Ptr → Ptr) {s : System ε} (hstart : s.Initial)
    (ops : List (Op ε)) :
    (s.run engines stripCode ops).Sound ∧
      Everywhere Hook.Coherent (s.run engines stripCode ops).held :=
  run_invariant (fun s ↦ s.Sound ∧ Everywhere Hook.Coherent s.held)
    (fun s op hs ↦ ⟨hs.1.stepped (step_stepped engines stripCode s op),
      step_coherent engines stripCode hs.1 hs.2 op⟩) s ops ⟨hstart.sound, hstart.everywhere _⟩

end System

end HookKit
