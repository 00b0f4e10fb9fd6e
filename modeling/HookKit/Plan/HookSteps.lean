import HookKit.Core.Progress
import HookKit.Plan.Hook

/-!
# What happens to one hook

One lemma for each function of `Plan/Hook.lean`: what it changes about the hook it is given, and
what it adds to the history.  Everything about whole calls and runs is derived from these.

* `Hook.Same` — the part of a hook nothing but analysis ever changes.
* `Hook.Touched` — what preparation does to a hook before it writes the outcome down.
* `settle_spec`, `commitOneHook_spec engines` — how a hook is settled by a commit.
-/

set_option autoImplicit false

namespace HookKit

open Trace

/-- Who the hook is, what it asks for and which engine serves it. -/
structure Hook.Same (h h' : Hook) : Prop where
  hookId : h'.hookId = h.hookId
  spec : h'.spec = h.spec
  targetKey : h'.targetKey = h.targetKey
  matchedEngine : h'.matchedEngine = h.matchedEngine

theorem Hook.Same.refl (h : Hook) : h.Same h := ⟨rfl, rfl, rfl, rfl⟩

theorem Hook.Same.trans {h₁ h₂ h₃ : Hook} (h : h₁.Same h₂) (h' : h₂.Same h₃) : h₁.Same h₃ :=
  ⟨h'.hookId.trans h.hookId, h'.spec.trans h.spec, h'.targetKey.trans h.targetKey,
    h'.matchedEngine.trans h.matchedEngine⟩

/-- The hook is the same, it is as installed as it was, and its result still has its outcome, its
generation and what was observed of a commit. -/
structure Hook.Touched (h h' : Hook) : Prop extends Hook.Same h h' where
  installed : h'.installed = h.installed
  outcome : h'.result.outcome = h.result.outcome
  generation : h'.result.imageGeneration = h.result.imageGeneration
  commitEffects : h'.result.observedCommitEffects = h.result.observedCommitEffects

theorem Hook.Touched.refl (h : Hook) : h.Touched h := ⟨.refl h, rfl, rfl, rfl, rfl⟩

theorem Hook.Touched.trans {h₁ h₂ h₃ : Hook} (h : h₁.Touched h₂) (h' : h₂.Touched h₃) :
    h₁.Touched h₃ :=
  ⟨h.toSame.trans h'.toSame, h'.installed.trans h.installed, h'.outcome.trans h.outcome,
    h'.generation.trans h.generation, h'.commitEffects.trans h.commitEffects⟩

variable {ε : Type} (engines : EngineRef → Engine ε)

theorem Hook.Same.engine {engines : EngineRef → Engine ε} {h h' : Hook} (hsame : h.Same h') :
    h'.engine engines = h.engine engines := by
  rw [Hook.engine, Hook.engine, hsame.matchedEngine]

theorem Hook.Same.caps {engines : EngineRef → Engine ε} {h h' : Hook} (hsame : h.Same h') :
    h'.caps engines = h.caps engines := by
  rw [Hook.caps, Hook.caps, hsame.engine]

/-! ## Preparation -/

theorem releasePrepared_touched (hook : Hook) (w : World ε) :
    hook.Touched (releasePrepared engines hook w).1 := by
  rw [releasePrepared]
  split
  · exact .refl hook
  · refine ⟨⟨rfl, rfl, rfl, rfl⟩, rfl, ?_, ?_, ?_⟩ <;> (dsimp only; split <;> rfl)

/-- Nothing is released where nothing was prepared. -/
theorem releasePrepared_idle {hook : Hook} (h : hook.preparedState = 0) (w : World ε) :
    releasePrepared engines hook w = (hook, w) := by
  rw [releasePrepared, if_pos h]

@[simp] theorem releasePrepared_preparedState (hook : Hook) (w : World ε) :
    (releasePrepared engines hook w).1.preparedState = 0 := by
  rw [releasePrepared]
  split
  · assumption
  · rfl

theorem releasePrepared_quiet (hook : Hook) (w : World ε) :
    w.Quiet Event.ofState (releasePrepared engines hook w).2 := by
  rw [releasePrepared]
  split
  · exact .refl w
  · have hlog : w.Quiet Event.ofState
        (w.log (.released hook.hookId hook.matchedEngine hook.preparedState)) :=
      World.quiet_log w trivial
    dsimp only
    split
    · exact hlog
    · exact hlog.setEnv _

/-- A continuation that cannot be inspected is a failed preparation, and leaves nothing behind. -/
theorem inspectPreparedContinuation_spec (hook : Hook) (diag : PrepareDiag) (w : World ε) :
    hook.Touched (inspectPreparedContinuation engines hook diag w).2.1 ∧
      w.Quiet Event.ofState (inspectPreparedContinuation engines hook diag w).2.2.2 := by
  rw [inspectPreparedContinuation]
  split
  · exact ⟨.refl hook, .refl w⟩
  · rename_i inspect _
    have hcall : w.Quiet Event.ofState (w.call (inspect hook.spec hook.preparedState)).2 :=
      World.quiet_call w _
    dsimp only
    split
    · exact ⟨.refl hook, hcall⟩
    · split
      · exact ⟨releasePrepared_touched engines hook _,
          hcall.trans (releasePrepared_quiet engines hook _)⟩
      · exact ⟨⟨⟨rfl, rfl, rfl, rfl⟩, rfl, rfl, rfl, rfl⟩, hcall⟩
    · exact ⟨releasePrepared_touched engines hook _,
        hcall.trans (releasePrepared_quiet engines hook _)⟩

/-- **Handing a hook to its engine for preparation.**  An engine without a preparation callback is
not reached at all; otherwise the call comes first, and the catalog's generation in it is the one
at that moment. -/
theorem dispatchPrepare_spec (path : Path) (runtime : RuntimeId) (hook : Hook) (w : World ε) :
    hook.Touched (dispatchPrepare engines path runtime hook w).2.1 ∧
      (dispatchPrepare engines path runtime hook w = (.failed, hook, .zero, w) ∨
        World.Quiet Event.ofState
          (w.log (.prepareCall path hook.hookId hook.result.imageGeneration
            (w.env.generation runtime)))
          (dispatchPrepare engines path runtime hook w).2.2.2) := by
  rw [dispatchPrepare]
  cases hanswer : (hook.engine engines).prepareAnswer hook w.env with
  | none => exact ⟨.refl hook, .inl rfl⟩
  | some given =>
    obtain ⟨answer, env⟩ := given
    let w₁ := w.log
      (.prepareCall path hook.hookId hook.result.imageGeneration (w.env.generation runtime))
    have hquiet : World.Quiet Event.ofState w₁
        ((w₁.setEnv env).log (.obtained hook.hookId hook.matchedEngine answer.prepared)) :=
      (World.quiet_setEnv w₁ env).log trivial
    have htouched : hook.Touched { hook with preparedState := answer.prepared } :=
      ⟨⟨rfl, rfl, rfl, rfl⟩, rfl, rfl, rfl, rfl⟩
    dsimp only
    split
    · obtain ⟨htouched', hquiet'⟩ := inspectPreparedContinuation_spec engines
        { hook with preparedState := answer.prepared } answer.diag
        ((w₁.setEnv env).log (.obtained hook.hookId hook.matchedEngine answer.prepared))
      exact ⟨htouched.trans htouched', .inr (hquiet.trans hquiet')⟩
    · exact ⟨htouched, .inr hquiet⟩

theorem dispatchPrepare_touched (path : Path) (runtime : RuntimeId) (hook : Hook) (w : World ε) :
    hook.Touched (dispatchPrepare engines path runtime hook w).2.1 :=
  (dispatchPrepare_spec engines path runtime hook w).1

theorem dispatchPrepare_quiet {ids : List Id} (path : Path) (runtime : RuntimeId) (hook : Hook)
    (hid : hook.hookId ∈ ids) (w : World ε) :
    w.Quiet (Event.ofPrepare ids) (dispatchPrepare engines path runtime hook w).2.2.2 := by
  rcases (dispatchPrepare_spec engines path runtime hook w).2 with h | h
  · rw [h]
    exact .refl w
  · exact (World.quiet_log w hid).trans (h.mono fun _ ↦ Event.ofState.ofPrepare)

theorem validatePrepareEffects_spec (result : PrepareResult) (hook : Hook) (diag : PrepareDiag)
    (w : World ε) :
    hook.Touched (validatePrepareEffects engines result hook diag w).2.1 ∧
      w.Quiet Event.ofState (validatePrepareEffects engines result hook diag w).2.2.2 := by
  rw [validatePrepareEffects]
  split
  · exact ⟨.refl hook, .refl w⟩
  · dsimp only
    split
    · exact ⟨releasePrepared_touched engines hook w, releasePrepared_quiet engines hook w⟩
    · exact ⟨.refl hook, .refl w⟩

/-- What is left of a preparation that went through is declared. -/
theorem validatePrepareEffects_declared {result : PrepareResult} {hook : Hook} {diag : PrepareDiag}
    {w : World ε} (h : (validatePrepareEffects engines result hook diag w).1 ≠ .failed) :
    (validatePrepareEffects engines result hook diag w).2.2.1.observedEffects &&&
      ~~~(hook.caps engines).prepareEffects = 0 := by
  rw [validatePrepareEffects] at h ⊢
  split at h
  · rename_i hdeclared
    rw [if_pos hdeclared]
    exact hdeclared
  · exact absurd rfl h

/-! ## Commit -/

/-- What the history records of a hook when a commit settles it. -/
def Hook.settledRecord (engines : EngineRef → Engine ε) (path : Path) (hook : Hook)
    (requiredPredecessor : Option Ptr) (published : Ptr) : CommitSettled where
  path := path
  hook := hook.hookId
  after := hook.spec.after
  key := hook.targetKey
  engineId := (hook.caps engines).engineId
  replacement := hook.spec.replacement
  requiredPredecessor := requiredPredecessor
  published := published
  requirement := hook.spec.originalRequirement
  installed := hook.installed
  outcome := hook.result.outcome

/-- What the history records of a hook when it is handed to its engine for the commit. -/
def Hook.commitRecord (engines : EngineRef → Engine ε) (path : Path) (runtime : RuntimeId)
    (hook : Hook) (requiredPredecessor : Option Ptr) (w : World ε) : CommitCall where
  path := path
  hook := hook.hookId
  key := hook.targetKey
  engineId := (hook.caps engines).engineId
  recorded := hook.result.imageGeneration
  current := w.env.generation runtime
  owner := w.owners.lookup hook.targetKey
  requiredPredecessor := requiredPredecessor
  requirement := hook.spec.originalRequirement
  installed := hook.installed

theorem settle_eq (path : Path) (hook : Hook) (out : HookResult) (required : Option Ptr)
    (published : Ptr) (w : World ε) :
    settle engines path hook out required published w =
      ({ hook with result := out },
        w.log (.commitSettled
          (Hook.settledRecord engines path { hook with result := out } required published))) :=
  rfl

@[simp] theorem Sink.record_requiredPredecessor (sink : Sink) (a : Artifact) (w : World ε) :
    (sink.record a w).1.requiredPredecessor = sink.requiredPredecessor := rfl

theorem Sink.write_requiredPredecessor (sink : Sink) (writes : SinkWrites) (w : World ε) :
    (sink.write writes w).1.requiredPredecessor = sink.requiredPredecessor := by
  rw [Sink.write]
  dsimp only
  generalize writes.records = records
  induction records generalizing sink w with
  | nil => rfl
  | cons a rest ih => exact ih (sink.record a w).1 (sink.record a w).2

/-- **Handing a hook to its engine for the commit.**  An engine without a commit callback is not
reached, and nobody knows what became of the target. -/
theorem dispatchCommit_spec (path : Path) (runtime : RuntimeId) (hook : Hook) (sink : Sink)
    (w : World ε) :
    (dispatchCommit engines path runtime hook sink w).2.1.requiredPredecessor =
        sink.requiredPredecessor ∧
      (dispatchCommit engines path runtime hook sink w = (.unknown, sink, w) ∨
        World.Quiet (fun _ ↦ False)
          (w.log (.commitCall (hook.commitRecord engines path runtime sink.requiredPredecessor w)))
          (dispatchCommit engines path runtime hook sink w).2.2) := by
  rw [dispatchCommit]
  split
  · exact ⟨rfl, .inl rfl⟩
  · refine ⟨Sink.write_requiredPredecessor _ _ _, .inr ?_⟩
    exact (World.quiet_setEnv _ _).trans (Sink.quiet_write _ _ _)

/-- The answer a hook is verified by: the verdict of the group where there is one, else the
engine's own. -/
def verifyCall (hook : Hook) (group : Option VerifyAnswer) (w : World ε) :
    VerifyAnswer × World ε :=
  match group with
  | some answer => (answer, w)
  | none => w.call ((hook.engine engines).verifyAnswer hook)

theorem verifyCall_quiet (hook : Hook) (group : Option VerifyAnswer) (w : World ε) :
    World.Quiet (fun _ ↦ False) w (verifyCall engines hook group w).2 := by
  cases group with
  | some answer => exact .refl w
  | none => exact World.quiet_call w _

/-- Verification can only spoil the mutation. -/
theorem applyVerification_spec (hook : Hook) (ledger : Ledger) (artifactStart : Nat)
    (mutation : Mutation) (out : HookResult) (group : Option VerifyAnswer) (w : World ε) :
    ((applyVerification engines hook ledger artifactStart mutation out group w).2.1 = mutation ∨
        (applyVerification engines hook ledger artifactStart mutation out group w).2.1 = .unknown) ∧
      World.Quiet (fun _ ↦ False) w
        (applyVerification engines hook ledger artifactStart mutation out group w).2.2.2 := by
  unfold applyVerification
  dsimp only
  split
  · exact ⟨.inl rfl, .refl w⟩
  · have hquiet := verifyCall_quiet engines hook group w
    unfold verifyCall at hquiet
    split
    · exact ⟨.inl rfl, hquiet⟩
    · split
      · exact ⟨.inl rfl, hquiet⟩
      · exact ⟨.inr rfl, hquiet⟩
    · exact ⟨.inr rfl, hquiet⟩

/-- What a recorded commit makes of the ownership ledger. -/
def Heads (engines : EngineRef → Engine ε) (hook : Hook) (published : Ptr) (w w' : World ε) :
    Prop :=
  ∀ key, w'.owners.lookup key =
    if key = hook.targetKey then
      some (Owners.headed (w.owners.lookup hook.targetKey) (hook.caps engines).engineId
        hook.spec.replacement published)
    else w.owners.lookup key

/-- A mutation stays complete only when its key has been headed, and the ledger is untouched when
it does not. -/
theorem recordOwnership_spec (hook : Hook) (out : HookResult) (mutation : Mutation)
    (published : Ptr) (w : World ε) :
    World.Adds (fun _ ↦ False) w (recordOwnership engines hook out mutation published w).2.2 ∧
      ((mutation = .complete ∧
          (recordOwnership engines hook out mutation published w).1 = .complete ∧
          Heads engines hook published w
            (recordOwnership engines hook out mutation published w).2.2) ∨
        ((recordOwnership engines hook out mutation published w).1 ≠ .complete ∧
          (recordOwnership engines hook out mutation published w).2.2.owners = w.owners)) := by
  rw [recordOwnership]
  split
  · rename_i hcomplete
    have hadds := World.adds_recordOwner (Q := fun _ ↦ False) w hook.targetKey
      (hook.caps engines).engineId hook.spec.replacement published
    have hcases := Owners.record_cases w.owners hook.targetKey (hook.caps engines).engineId
      hook.spec.replacement published w.env
    rw [World.recordOwner] at hadds ⊢
    generalize Owners.record w.owners hook.targetKey (hook.caps engines).engineId
      hook.spec.replacement published w.env = r at hadds hcases ⊢
    obtain ⟨ok, owners, env⟩ := r
    rcases hcases with ⟨hok, howners⟩ | ⟨hok, howners⟩
    · cases hok
      exact ⟨hadds, .inr ⟨nofun, howners⟩⟩
    · cases hok
      exact ⟨hadds, .inl ⟨hcomplete, hcomplete, howners⟩⟩
  · rename_i hmutation
    exact ⟨.refl w, .inr ⟨hmutation, rfl⟩⟩

/-- An active hook has an installed record when its engine published an original and the record
could be allocated. -/
theorem retainOriginal_spec (hook : Hook) (out : HookResult) (published : Ptr) (w : World ε) :
    hook.Same (retainOriginal hook out published w).1 ∧
      (retainOriginal hook out published w).1.preparedState = hook.preparedState ∧
      (retainOriginal hook out published w).2.1.outcome = out.outcome ∧
      World.Quiet (fun _ ↦ False) w (retainOriginal hook out published w).2.2 := by
  rw [retainOriginal]
  split
  · exact ⟨.refl hook, rfl, rfl, .refl w⟩
  · dsimp only
    have hcreate := World.quiet_createInstalled (Q := fun _ ↦ False) w.freshId.2 w.freshId.1
      published { out with installedId := w.freshId.1, originalAvailable := true }
    have hfresh := (World.quiet_freshId w).trans hcreate
    split
    · rename_i heq
      rw [heq] at hfresh
      exact ⟨⟨rfl, rfl, rfl, rfl⟩, rfl, rfl, hfresh⟩
    · rename_i heq
      rw [heq] at hfresh
      exact ⟨.refl hook, rfl, rfl, hfresh⟩

/-- The roll-up can only spoil the mutation. -/
theorem rollUp_mutation (runtime : RuntimeId) (hook : Hook) (out : HookResult)
    (artifactCount : Nat) (mutation : Mutation) (sink : Sink) (w : World ε) :
    (rollUp engines runtime hook out artifactCount mutation sink w).1 = mutation ∨
      (rollUp engines runtime hook out artifactCount mutation sink w).1 = .unknown := by
  rw [rollUp]
  dsimp only
  split
  · split
    · exact .inr rfl
    · exact .inl rfl
  · exact .inr rfl

/-- The outcomes of a hook that was handed over for its commit, or refused for its owner. -/
def Outcome.isVerdict : Outcome → Bool
  | .active | .conflict | .failedSafe | .failedPartial | .failedUnknown | .compensated => true
  | _ => false

/-- The outcomes a commit ends a hook with. -/
def Outcome.isFinal (o : Outcome) : Bool := o = .stalePlan || o.isVerdict

theorem Outcome.isFinal_of_isVerdict {o : Outcome} (h : o.isVerdict = true) : o.isFinal = true := by
  rw [isFinal, h, Bool.or_true]

theorem Outcome.ne_stale_of_isVerdict {o : Outcome} (h : o.isVerdict = true) : o ≠ .stalePlan := by
  rintro rfl
  cases h

theorem Mutation.outcome_isVerdict (mutation : Mutation) : mutation.outcome.isVerdict = true := by
  cases mutation <;> rfl

theorem Mutation.outcome_ne_active {mutation : Mutation} (h : mutation ≠ .complete) :
    mutation.outcome ≠ .active := by
  cases mutation <;> first | exact absurd rfl h | exact nofun

/-- What the roll-up after a commit callback leaves. -/
structure Finished (engines : EngineRef → Engine ε) (path : Path) (hook : Hook)
    (mutation : Mutation) (sink : Sink) (owned compensated : Bool) (w : World ε)
    (hook' : Hook) (w' : World ε) : Prop where
  same : hook.Same hook'
  preparedState : hook'.preparedState = hook.preparedState
  verdict : hook'.result.outcome.isVerdict = true
  installed : hook'.result.outcome = .active ∨ hook'.installed = hook.installed
  active : hook'.result.outcome = .active → mutation = .complete ∧ compensated = false
  world : ∃ mid, World.Adds (fun _ ↦ False) w mid ∧ w' = mid.log (.commitSettled
    (hook'.settledRecord engines path sink.requiredPredecessor sink.publishedOriginal))
  unowned : owned = false → w'.owners = w.owners
  owned : owned = true → compensated = false →
    (hook'.result.outcome = .active ∧ Heads engines hook sink.publishedOriginal w w') ∨
      (hook'.result.outcome ≠ .active ∧ w'.owners = w.owners)

theorem finishCommitAttempt_spec (path : Path) (runtime : RuntimeId) (hook : Hook)
    (out : HookResult) (ledger : Ledger) (artifactStart : Nat) (mutation : Mutation) (sink : Sink)
    (group : Option VerifyAnswer) (owned compensated : Bool) (w : World ε) :
    Finished engines path hook mutation sink owned compensated w
      (finishCommitAttempt engines path runtime hook out ledger artifactStart mutation sink group
        owned compensated w).1
      (finishCommitAttempt engines path runtime hook out ledger artifactStart mutation sink group
        owned compensated w).2.2 := by
  rw [finishCommitAttempt]
  have hrolled := rollUp_mutation engines runtime hook out
    (ledger.count - artifactStart) mutation sink w
  generalize rollUp engines runtime hook out (ledger.count - artifactStart) mutation sink w = rolled
    at hrolled ⊢
  obtain ⟨m₁, out₁⟩ := rolled
  have hverified := applyVerification_spec engines hook ledger artifactStart m₁ out₁
    group w
  dsimp only at hrolled ⊢
  generalize applyVerification engines hook ledger artifactStart m₁ out₁ group w = verified
    at hverified ⊢
  obtain ⟨ledger₂, m₂, out₂, w₂⟩ := verified
  obtain ⟨hm₂, hquiet₂⟩ := hverified
  dsimp only at hm₂ hquiet₂ ⊢
  have hm : m₂ = .complete → mutation = .complete := by
    rintro rfl
    rcases hm₂ with rfl | h
    · rcases hrolled with h | h
      · exact h.symm
      · cases h
    · cases h
  -- the record of the key, if the caller asked for it
  obtain ⟨m₃, out₃, w₃, howned, hm₃, hadds₃, hunowned, hheads⟩ :
      ∃ m₃ out₃ w₃,
        (if owned then
          recordOwnership engines hook { out₂ with mutation := m₂ } m₂ sink.publishedOriginal w₂
        else (m₂, { out₂ with mutation := m₂ }, w₂)) = (m₃, out₃, w₃) ∧
        (m₃ = .complete → mutation = .complete) ∧ World.Adds (fun _ ↦ False) w w₃ ∧
        (owned = false → w₃.owners = w.owners) ∧
        (owned = true → (m₃ = .complete ∧ Heads engines hook sink.publishedOriginal w w₃) ∨
          (m₃ ≠ .complete ∧ w₃.owners = w.owners)) := by
    cases owned with
    | false => exact ⟨_, _, _, rfl, hm, hquiet₂.toAdds, fun _ ↦ hquiet₂.owners, nofun⟩
    | true =>
      obtain ⟨hadds, hcases⟩ := recordOwnership_spec engines hook
        { out₂ with mutation := m₂ } m₂ sink.publishedOriginal w₂
      refine ⟨_, _, _, rfl, ?_, hquiet₂.toAdds.trans hadds, nofun, fun _ ↦ ?_⟩
      · intro h
        rcases hcases with ⟨hcomplete, -, -⟩ | ⟨hne, -⟩
        · exact hm hcomplete
        · exact absurd h hne
      · rcases hcases with ⟨-, hcomplete, hhead⟩ | ⟨hne, heq⟩
        · refine .inl ⟨hcomplete, fun key ↦ ?_⟩
          have hkey := hhead key
          rw [hquiet₂.owners] at hkey
          exact hkey
        · exact .inr ⟨hne, heq.trans hquiet₂.owners⟩
  rw [howned]
  dsimp only
  cases compensated with
  | true =>
    exact ⟨⟨rfl, rfl, rfl, rfl⟩, rfl, rfl, .inr rfl, nofun, ⟨w₃, hadds₃, rfl⟩, hunowned, nofun⟩
  | false =>
    by_cases hcomplete : m₃ = .complete
    · obtain ⟨hsame, hprepared, houtcome, hquiet⟩ := retainOriginal_spec hook
        { out₃ with outcome := .active } sink.publishedOriginal w₃
      rw [if_neg (by decide), if_pos hcomplete]
      generalize retainOriginal hook { out₃ with outcome := .active } sink.publishedOriginal w₃ = r
        at hsame hprepared houtcome hquiet ⊢
      obtain ⟨hook', out', w'⟩ := r
      refine ⟨⟨hsame.hookId, hsame.spec, hsame.targetKey, hsame.matchedEngine⟩, hprepared, ?_,
        .inl houtcome, fun _ ↦ ⟨hm₃ hcomplete, rfl⟩, ⟨w', hadds₃.trans hquiet.toAdds, rfl⟩,
        fun h ↦ hquiet.owners.trans (hunowned h), fun h _ ↦ ?_⟩
      · show out'.outcome.isVerdict = true
        rw [houtcome]
        rfl
      · rcases hheads h with ⟨-, hhead⟩ | ⟨hne, -⟩
        · refine .inl ⟨houtcome, fun key ↦ ?_⟩
          show w'.owners.lookup key = _
          rw [hquiet.owners]
          exact hhead key
        · exact absurd hcomplete hne
    · rw [if_neg (by decide), if_neg hcomplete]
      have hne := Mutation.outcome_ne_active hcomplete
      refine ⟨⟨rfl, rfl, rfl, rfl⟩, rfl, Mutation.outcome_isVerdict m₃, .inr rfl,
        fun h ↦ absurd h hne, ⟨w₃, hadds₃, rfl⟩, hunowned, fun h _ ↦ ?_⟩
      rcases hheads h with ⟨h', -⟩ | ⟨-, heq⟩
      · exact absurd h' hcomplete
      · exact .inr ⟨hne, heq⟩

/-- The checks before the roll-up can only spoil the mutation, and they do when an owned key's
predecessor was not published. -/
theorem recoverMutation_spec (hook : Hook) (owner : Option Owner) (mutation : Mutation)
    (sink : Sink) (out : HookResult)
    (h : (recoverMutation engines hook owner mutation sink out).1 = .complete) :
    mutation = .complete ∧ ∀ o, owner = some o → sink.publishedOriginal = o.headReplacement := by
  rw [recoverMutation] at h
  generalize hm₁ : (if sink.recordFailed = true ∧ mutation = .complete then Mutation.unknown
    else mutation) = m₁ at h
  dsimp only at h
  generalize hr : (if m₁ = .complete then
      (if (validateCommitEffects engines hook sink out).1 = true then m₁ else .unknown,
        (validateCommitEffects engines hook sink out).2)
    else (m₁, out)) = r at h
  have hcomplete : r.1 = .complete → mutation = .complete := by
    intro hr₁
    rw [← hr] at hr₁
    split at hr₁
    · rename_i hm
      rw [hm] at hm₁
      split at hm₁
      · cases hm₁
      · exact hm₁
    · rename_i hne
      exact absurd hr₁ hne
  split at h
  · split at h
    · cases h
    · rename_i owner hne
      refine ⟨hcomplete h, fun o ho ↦ ?_⟩
      cases ho
      by_contra hpub
      exact hne ⟨h, hpub⟩
  · exact ⟨hcomplete h, nofun⟩

theorem ownershipConflict_eq_false {caps : Capabilities} {kind : TargetKind} {owner : Owner}
    (h : ownershipConflict caps kind (some owner) = false) : caps.engineId = owner.engineId := by
  rw [ownershipConflict, Bool.or_eq_false_iff] at h
  simpa using h.2

/-- What the critical section of a one-hook commit does: at most one call to the engine, which
knows the owner of the key, and then the settled hook. -/
structure CommittedOne (engines : EngineRef → Engine ε) (path : Path) (runtime : RuntimeId)
    (hook : Hook) (w : World ε) (hook' : Hook) (w' : World ε) : Prop where
  same : hook.Same hook'
  preparedState : hook'.preparedState = hook.preparedState
  verdict : hook'.result.outcome.isVerdict = true
  installed : hook'.result.outcome = .active ∨ hook'.installed = hook.installed
  world : ∃ mid required published,
    World.Adds (fun e ↦ e = .commitCall (hook.commitRecord engines path runtime
        ((w.owners.lookup hook.targetKey).map Owner.headReplacement) w) ∧
      ∀ o, w.owners.lookup hook.targetKey = some o → (hook.caps engines).engineId = o.engineId)
      w mid ∧
    w' = mid.log (.commitSettled (hook'.settledRecord engines path required published)) ∧
    (hook'.result.outcome = .active →
      .commitCall (hook.commitRecord engines path runtime required w) ∈ mid.history ∧
      required = (w.owners.lookup hook.targetKey).map Owner.headReplacement ∧
      (∀ o, w.owners.lookup hook.targetKey = some o →
        published = o.headReplacement ∧ (hook.caps engines).engineId = o.engineId) ∧
      Heads engines hook published w w') ∧
    (hook'.result.outcome ≠ .active → w'.owners = w.owners)

theorem commitOneHook_spec (path : Path) (runtime : RuntimeId) (planId ownerId : Id)
    (continuation : Option ContinuationInfo) (hook : Hook) (out : HookResult) (ledger : Ledger)
    (w : World ε) :
    CommittedOne engines path runtime hook w
      (commitOneHook engines path runtime planId ownerId continuation hook out ledger w).1
      (commitOneHook engines path runtime planId ownerId continuation hook out ledger w).2.2 := by
  rw [commitOneHook]
  dsimp only
  split
  · refine ⟨⟨rfl, rfl, rfl, rfl⟩, rfl, rfl, .inr rfl, w, none, 0, .refl w, rfl, ?_, fun _ ↦ rfl⟩
    exact fun h ↦ absurd h (by exact nofun)
  · rename_i hconflict
    have hengine : ∀ o, w.owners.lookup hook.targetKey = some o →
        (hook.caps engines).engineId = o.engineId := by
      intro o ho
      rw [ho] at hconflict
      exact ownershipConflict_eq_false (by simpa using hconflict)
    generalize hsink : ({ ledger := ledger, planId := planId, runtimeOwnerId := ownerId
                          requestId := hook.hookId, publishedOriginal := 0
                          continuation := continuation
                          requiredPredecessor :=
                            (w.owners.lookup hook.targetKey).map Owner.headReplacement
                          recordFailed := false, observedEffects := 0 } : Sink) = sink₀
    have hrequired₀ : sink₀.requiredPredecessor =
        (w.owners.lookup hook.targetKey).map Owner.headReplacement := by rw [← hsink]
    obtain ⟨hrequired, hdispatch⟩ := dispatchCommit_spec engines path runtime hook
      sink₀ w
    generalize dispatchCommit engines path runtime hook sink₀ w =
      dispatched at hrequired hdispatch ⊢
    obtain ⟨m₁, sink₁, w₁⟩ := dispatched
    dsimp only at hrequired hdispatch ⊢
    rw [hrequired₀] at hrequired hdispatch
    have hcalls : World.Quiet (fun e ↦ e = .commitCall (hook.commitRecord engines path runtime
          ((w.owners.lookup hook.targetKey).map Owner.headReplacement) w) ∧
        ∀ o, w.owners.lookup hook.targetKey = some o → (hook.caps engines).engineId = o.engineId)
        w w₁ := by
      rcases hdispatch with heq | hquiet
      · cases heq
        exact .refl w
      · exact (World.quiet_log w ⟨rfl, hengine⟩).trans (hquiet.mono fun _ ↦ False.elim)
    have hcalled : m₁ = .complete → .commitCall (hook.commitRecord engines path runtime
        ((w.owners.lookup hook.targetKey).map Owner.headReplacement) w) ∈ w₁.history := by
      rintro rfl
      rcases hdispatch with heq | hquiet
      · cases heq
      · exact hquiet.history.mem_old List.mem_cons_self
    have hrecover := recoverMutation_spec engines hook
      (w.owners.lookup hook.targetKey) m₁ sink₁ out
    generalize recoverMutation engines hook (w.owners.lookup hook.targetKey)
      m₁ sink₁ out = recovered
      at hrecover ⊢
    obtain ⟨m₂, out₂⟩ := recovered
    dsimp only at hrecover ⊢
    have hfinish := finishCommitAttempt_spec engines path runtime hook out₂
      sink₁.ledger ledger.count m₂ sink₁ none true false w₁
    refine ⟨hfinish.same, hfinish.preparedState, hfinish.verdict, hfinish.installed, ?_⟩
    obtain ⟨mid, hadds, hmid⟩ := hfinish.world
    rw [hrequired] at hmid
    refine ⟨mid, _, _, hcalls.toAdds.trans (hadds.mono fun _ ↦ False.elim), hmid, ?_, ?_⟩
    · intro hactive
      obtain ⟨hm₂, -⟩ := hfinish.active hactive
      obtain ⟨hm₁, hpublished⟩ := hrecover hm₂
      refine ⟨?_, rfl, fun o ho ↦ ⟨hpublished o ho, hengine o ho⟩, fun key ↦ ?_⟩
      · rw [hadds.history_eq]
        exact hcalled hm₁
      · rcases hfinish.owned rfl rfl with ⟨-, hheads⟩ | ⟨hne, -⟩
        · have hkey := hheads key
          rw [hcalls.owners] at hkey
          exact hkey
        · exact absurd hactive hne
    · intro hne
      rcases hfinish.owned rfl rfl with ⟨hactive, -⟩ | ⟨-, heq⟩
      · exact absurd hactive hne
      · exact heq.trans hcalls.owners

end HookKit
